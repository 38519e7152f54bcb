/-
# What the legacy layout leaves dangling

In legacy code the label that a false condition jumps to stands nowhere.  So code with a choice in
it does not pass the check of labels.  The check goes through the jumps in the order of the code,
and reports the first whose label is missing.  In the code of an accepted tree the choices jump in
preorder, because there is no choice in a condition (`Tree.falseJumps_eq_choices`), and the label
reported is that of the first choice of all.

* `Builder.Exits`: some labels are those of conditional jumps in new code, in order.
* `checkPairing_of_missing`: what the check says when a part of the jumps has lost its labels.
* `Tree.legacy_layout`: the legacy layout against the structured one.
-/
import ProcTree.Proofs.Lowering.Layouts
import ProcTree.Proofs.Operator

namespace ProcTree

/-! ## 1. Jumps in the code -/

/-- The label that the instruction jumps to when its condition is false. -/
def Instruction.exit? (i : Instruction) : Option Label :=
  if i.opcode = .gotoUnless then i.target? else none

/-- Conditional jumps are some of the jumps. -/
theorem exits_sublist (code : List Instruction) :
    (code.filterMap Instruction.exit?).Sublist (code.filterMap Instruction.target?) := by
  induction code with
  | nil => exact .slnil
  | cons i code ih =>
    cases htarget : i.target? with
    | none =>
      have hexit : i.exit? = none := by simp [Instruction.exit?, htarget]
      simpa [htarget, hexit] using ih
    | some l =>
      by_cases ho : i.opcode = .gotoUnless
      · have hexit : i.exit? = some l := by rw [Instruction.exit?, if_pos ho, htarget]
        simpa [htarget, hexit] using ih
      · have hexit : i.exit? = none := if_neg ho
        simpa [htarget, hexit] using ih.cons l

namespace Builder

variable {b b₁ b₂ : Builder} {ls ls' : List Label}

/-- Code was added at the end, with conditional jumps to these labels in this order, and maybe with
others in between. -/
def Exits (ls : List Label) (b b' : Builder) : Prop :=
  ∃ seg, b'.code = b.code ++ seg ∧ ls.Sublist (seg.filterMap Instruction.exit?)

namespace Exits

theorem trans (h : Exits ls b b₁) (h' : Exits ls' b₁ b₂) : Exits (ls ++ ls') b b₂ := by
  obtain ⟨seg, hc, hs⟩ := h
  obtain ⟨seg', hc', hs'⟩ := h'
  refine ⟨seg ++ seg', ?_, ?_⟩
  · rw [hc', hc, List.append_assoc]
  · rw [List.filterMap_append]
    exact hs.append hs'

theorem refl (b : Builder) : Exits [] b b := ⟨[], by simp, .slnil⟩

/-- No jumps are asked of code that was added anyhow. -/
theorem of_closes {k : Nat} (h : Closes k b b₁) : Exits [] b b₁ := by
  obtain ⟨A, T, ⟨-, seg, hc, -, -⟩, -, -⟩ := h
  exact ⟨seg, hc, List.nil_sublist _⟩

theorem push (b : Builder) (i : Instruction) : Exits [] b (b.push i) :=
  ⟨[i], rfl, List.nil_sublist _⟩

/-- A label is taken, or two, and a jump to one of them is added. -/
theorem leaving {b' : Builder} (hcode : b'.code = b.code) (condition : Handle) (l : Label) :
    Exits [l] b (b'.push (Tree.leaving condition l)) := by
  refine ⟨[Tree.leaving condition l], by rw [code_push, hcode], ?_⟩
  exact List.Sublist.refl [l]

end Exits
end Builder

namespace Tree
open Lowering Builder

variable {b b' : Builder} {r : Option Handle}

theorem nextLabel_of_lower {t : Tree} (h : t.lower .structured b = .ok r b') :
    b'.nextLabel = b.nextLabel + t.labelCount := by
  obtain ⟨A, T, hadd, -, -⟩ := lower_closes t h
  exact hadd.nextLabel

/-- **The false jumps of a tree are in its code**, in their order. -/
theorem lower_exits (t : Tree) : ∀ {b b' : Builder} {r : Option Handle},
    t.lower .structured b = .ok r b' → Exits (t.falseLabels b.nextLabel) b b' := by
  induction t using Tree.ind with
  | constant v | reference g => exact fun h => .of_closes (lower_closes _ h)
  | negation a iha =>
    intro b b' r h
    obtain ⟨source, b₁, ha, -, rfl⟩ := lower_negation_iff.mp h
    have hend : ∀ i, Exits [] b₁ ((b₁.withTemp (.zero .boolean)).push i) :=
      fun i => .push (b₁.withTemp (.zero .boolean)) i
    simpa [falseLabels, falseJumps] using (iha ha).trans (hend _)
  | binary op a₁ a₂ ih₁ ih₂ =>
    intro b b' r h
    obtain ⟨left, b₁, h₁, right, b₂, h₂, h⟩ := lower_binary_iff.mp h
    have hend := Exits.of_closes ((keeps_combined op _ left right).of_ok h)
    have hall := ((ih₁ h₁).trans (ih₂ h₂)).trans hend
    rw [nextLabel_of_lower h₁] at hall
    simpa [falseLabels, falseJumps] using hall
  | assign g a iha =>
    intro b b' r h
    obtain ⟨source, b₁, ha, hc, -⟩ := lower_assign_iff.mp h
    have hend := Exits.of_closes ((keeps_copy g source).of_ok hc)
    simpa [falseLabels, falseJumps] using (iha ha).trans hend
  | write a newline iha =>
    intro b b' r h
    obtain ⟨source, b₁, ha, -, rfl⟩ := lower_write_iff.mp h
    simpa [falseLabels, falseJumps] using (iha ha).trans (.push b₁ _)
  | choice c a ihc iha =>
    intro b b' r h
    obtain ⟨condition, b₁, hc, r₂, b₂, ha, -, rfl⟩ := lower_choice_iff.mp h
    have hleave : Exits [b₁.label] b₁ (b₁.takeLabel.push (leaving condition b₁.label)) :=
      .leaving rfl condition b₁.label
    have hall := (((ihc hc).trans hleave).trans (iha ha)).trans (.push b₂ (.carrier b₁.label))
    have hlabel : b₁.label = ⟨UInt64.ofNat (b.nextLabel + c.labelCount)⟩ := by
      rw [Builder.label, nextLabel_of_lower hc]
    rw [nextLabel_push, nextLabel_takeLabel, nextLabel_of_lower hc] at hall
    simpa only [falseLabels, falseJumps, List.map_append, List.map_cons, ← hlabel,
      List.append_assoc, List.append_nil, List.cons_append, List.nil_append] using hall
  | choiceElse c a₁ a₂ ihc ih₁ ih₂ =>
    intro b b' r h
    obtain ⟨condition, b₁, hc, r₂, b₂, h₁, r₃, b₃, h₂, -, rfl⟩ := lower_choiceElse_iff.mp h
    have hleave : Exits [b₁.label] b₁
        (b₁.takeLabel.takeLabel.push (leaving condition b₁.label)) :=
      .leaving rfl condition b₁.label
    have hjump : Exits [] b₂ _ := (Exits.push b₂ (jumping b₁.takeLabel.label)).trans
      (.push _ (.carrier b₁.label))
    have hall := (((((ihc hc).trans hleave).trans (ih₁ h₁)).trans hjump).trans (ih₂ h₂)).trans
      (.push b₃ (.carrier b₁.takeLabel.label))
    have hlabel : b₁.label = ⟨UInt64.ofNat (b.nextLabel + c.labelCount)⟩ := by
      rw [Builder.label, nextLabel_of_lower hc]
    simp only [nextLabel_push, nextLabel_takeLabel, nextLabel_of_lower h₁,
      nextLabel_of_lower hc] at hall
    simpa only [falseLabels, falseJumps, List.map_append, List.map_cons, ← hlabel,
      List.append_assoc, List.append_nil, List.cons_append, List.nil_append] using hall
  | loop c a ihc iha =>
    intro b b' r h
    obtain ⟨condition, b₁, hc, r₂, b₂, ha, -, rfl⟩ := lower_loop_iff.mp h
    have hbegin : Exits [] b (b.takeLabel.takeLabel.push (.carrier b.label)) :=
      .push b.takeLabel.takeLabel _
    have hend : Exits [] b₂ _ := (Exits.push b₂ (jumping b.label)).trans
      (.push _ (.carrier b.takeLabel.label))
    have hall := (((hbegin.trans (ihc hc)).trans
      (.push b₁ (leaving condition b.takeLabel.label))).trans (iha ha)).trans hend
    simp only [nextLabel_push, nextLabel_takeLabel, nextLabel_of_lower hc] at hall
    simpa only [falseLabels, falseJumps, List.map_append, List.append_assoc, List.append_nil,
      List.nil_append] using hall
  | block ts ih =>
    intro b b' r h
    obtain ⟨hall, -⟩ := lower_block_iff.mp h
    have all : ∀ us, us ⊆ ts → ∀ {b : Builder}, lowerAll .structured us b = .ok () b' →
        Exits ((Tree.block us).falseLabels b.nextLabel) b b' := by
      intro us
      induction us with
      | nil =>
        intro _ b h
        obtain rfl := lowerAll_nil_iff.mp h
        exact .refl b'
      | cons u us ihus =>
        intro hus b h
        obtain ⟨r₁, b₁, hu, h⟩ := lowerAll_cons_iff.mp h
        have hall := (ih u (hus List.mem_cons_self) hu).trans
          (ihus (List.subset_of_cons_subset hus) h)
        rw [nextLabel_of_lower hu] at hall
        simpa [falseLabels, falseJumps, falseJumpsAll] using hall
    exact all ts (List.Subset.refl ts) hall

/-! ## 2. Choices -/

/-- The choices of a tree in preorder. -/
def choices (t : Tree) : List Tree := t.subtrees.filter isChoice

/-- The choices are the root, if it is one, and those of the children. -/
theorem choices_eq (t : Tree) : t.choices =
    if t.isChoice then t :: t.children.flatMap choices else t.children.flatMap choices := by
  rw [choices, subtrees_eq, List.filter_cons, List.filter_flatMap]
  rfl

/-- **Every choice has its jump.** -/
theorem falseJumps_perm (t : Tree) : ∀ next,
    ((t.falseJumps next).map Prod.fst).Perm t.choices := by
  induction t using Tree.ind with
  | constant v | reference g => exact fun _ => .refl []
  | negation a iha | assign g a iha | write a newline iha =>
    intro next
    simpa [falseJumps, choices_eq (.negation _), choices_eq (.assign _ _),
      choices_eq (.write _ _), children, isChoice] using iha next
  | binary op a b iha ihb =>
    intro next
    simpa [falseJumps, choices_eq (.binary _ _ _), children, isChoice] using
      (iha next).append (ihb _)
  | choice c a ihc iha =>
    intro next
    simpa [falseJumps, choices_eq (.choice _ _), children, isChoice] using
      List.perm_middle.trans (((ihc next).append (iha _)).cons (.choice c a))
  | choiceElse c a b ihc iha ihb =>
    intro next
    simpa [falseJumps, choices_eq (.choiceElse _ _ _), children, isChoice] using
      List.perm_middle.trans
        (((ihc next).append ((iha _).append (ihb _))).cons (.choiceElse c a b))
  | loop c a ihc iha =>
    intro next
    simpa [falseJumps, choices_eq (.loop _ _), children, isChoice] using (ihc _).append (iha _)
  | block ts ih =>
    have all : ∀ us, us ⊆ ts → ∀ next,
        ((falseJumpsAll next us).map Prod.fst).Perm (us.flatMap choices) := by
      intro us
      induction us with
      | nil => exact fun _ _ => .refl []
      | cons u us ihus =>
        intro hus next
        simpa [falseJumpsAll] using
          (ih u (hus List.mem_cons_self) next).append (ihus (List.subset_of_cons_subset hus) _)
    intro next
    simpa [falseJumps, choices_eq (.block _), children, isChoice] using
      all ts (List.Subset.refl ts) next

theorem falseJumps_eq_nil {t : Tree} (h : t.choices = []) (next : Nat) :
    t.falseJumps next = [] := by
  have hperm := t.falseJumps_perm next
  rw [h] at hperm
  exact List.map_eq_nil_iff.mp hperm.eq_nil

/-- An accepted expression has no choices: all its nodes are expressions. -/
theorem choices_eq_nil {t : Tree} : t.check = .ok () → t.staticType ≠ none → t.choices = [] := by
  induction t using Tree.ind with
  | constant v | reference g => exact fun _ _ => rfl
  | negation a iha =>
    intro hc _
    obtain ⟨hca, hty⟩ := check_negation_iff.mp hc
    simpa [choices_eq (.negation a), children, isChoice] using iha hca (by simp [hty])
  | binary op a b iha ihb =>
    intro hc _
    obtain ⟨hca, hcb, hop⟩ := check_binary_iff.mp hc
    obtain ⟨-, hta, htb⟩ := Operator.takes_of_check hop
    simp [choices_eq (.binary op a b), children, isChoice, iha hca hta, ihb hcb htb]
  | _ => exact fun _ ht => absurd rfl ht

/-- **The choices of an accepted tree jump in preorder**, as there are none in its conditions. -/
theorem falseJumps_eq_choices {t : Tree} : t.check = .ok () → ∀ next,
    (t.falseJumps next).map Prod.fst = t.choices := by
  induction t using Tree.ind with
  | constant v | reference g => exact fun _ _ => rfl
  | negation a iha =>
    intro hc next
    simpa [falseJumps, choices_eq (.negation a), children, isChoice] using
      iha (check_negation_iff.mp hc).1 next
  | assign g a iha =>
    intro hc next
    simpa [falseJumps, choices_eq (.assign g a), children, isChoice] using
      iha (check_assign_iff.mp hc).1 next
  | write a newline iha =>
    intro hc next
    simpa [falseJumps, choices_eq (.write a newline), children, isChoice] using
      iha (check_write_iff.mp hc).1 next
  | binary op a b iha ihb =>
    intro hc next
    obtain ⟨hca, hcb, -⟩ := check_binary_iff.mp hc
    simp [falseJumps, choices_eq (.binary op a b), children, isChoice, iha hca, ihb hcb]
  | choice c a _ iha =>
    intro hc next
    obtain ⟨hcc, hty, hca⟩ := check_choice_iff.mp hc
    have hnone := choices_eq_nil hcc (by simp [hty])
    simp [falseJumps, choices_eq (.choice c a), children, isChoice, falseJumps_eq_nil hnone, hnone,
      iha hca]
  | choiceElse c a b _ iha ihb =>
    intro hc next
    obtain ⟨hcc, hty, hca, hcb⟩ := check_choiceElse_iff.mp hc
    have hnone := choices_eq_nil hcc (by simp [hty])
    simp [falseJumps, choices_eq (.choiceElse c a b), children, isChoice, falseJumps_eq_nil hnone,
      hnone, iha hca, ihb hcb]
  | loop c a _ iha =>
    intro hc next
    obtain ⟨hcc, hty, hca⟩ := check_loop_iff.mp hc
    have hnone := choices_eq_nil hcc (by simp [hty])
    simp [falseJumps, choices_eq (.loop c a), children, isChoice, falseJumps_eq_nil hnone, hnone,
      iha hca]
  | block ts ih =>
    intro hc next
    have all : ∀ us, us ⊆ ts → ∀ next,
        (falseJumpsAll next us).map Prod.fst = us.flatMap choices := by
      intro us
      induction us with
      | nil => exact fun _ _ => rfl
      | cons u us ihus =>
        intro hus next
        have hu := hus List.mem_cons_self
        rw [falseJumpsAll, List.map_append, ih u hu (check_block_iff.mp hc u hu),
          ihus (List.subset_of_cons_subset hus), List.flatMap_cons]
    simpa [falseJumps, choices_eq (.block ts), children, isChoice] using
      all ts (List.Subset.refl ts) next

/-- What is lowered of an accepted tree is accepted. -/
theorem check_lowered (layout : ChoiceLayout) {t : Tree} :
    t.check = .ok () → (t.lowered layout).check = .ok () := by
  induction t using Tree.ind with
  | constant v | reference g => exact fun h => h
  | negation a iha =>
    rw [lowered, check_negation_iff, check_negation_iff, staticType_lowered]
    exact fun h => ⟨iha h.1, h.2⟩
  | binary op a b iha ihb =>
    rw [lowered, check_binary_iff, check_binary_iff, staticType_lowered, staticType_lowered]
    exact fun h => ⟨iha h.1, ihb h.2.1, h.2.2⟩
  | assign g a iha =>
    rw [lowered, check_assign_iff, check_assign_iff, staticType_lowered]
    exact fun h => ⟨iha h.1, h.2⟩
  | write a newline iha =>
    rw [lowered, check_write_iff, check_write_iff, staticType_lowered]
    exact fun h => ⟨iha h.1, h.2⟩
  | choice c a ihc iha =>
    rw [lowered, check_choice_iff, check_choice_iff, staticType_lowered]
    exact fun h => ⟨ihc h.1, h.2.1, iha h.2.2⟩
  | choiceElse c a b ihc iha ihb =>
    rw [lowered, check_choiceElse_iff, check_choiceElse_iff, staticType_lowered]
    refine fun h => ⟨ihc h.1, h.2.1, iha h.2.2.1, ?_⟩
    split
    · exact ihb h.2.2.2
    · rfl
  | loop c a ihc iha =>
    rw [lowered, check_loop_iff, check_loop_iff, staticType_lowered]
    exact fun h => ⟨ihc h.1, h.2.1, iha h.2.2⟩
  | block ts ih =>
    rw [lowered, loweredAll_eq, check_block_iff, check_block_iff]
    intro h u hu
    obtain ⟨t, ht, rfl⟩ := List.mem_map.mp hu
    exact ih t ht (h t ht)

theorem choices_eq_nil_iff {t : Tree} :
    t.choices = [] ↔ t.isChoice = false ∧ ∀ c ∈ t.children, c.choices = [] := by
  rw [choices_eq]
  cases t.isChoice <;> simp

/-- Without choices nothing is left out. -/
theorem lowered_of_choices_eq_nil {t : Tree} :
    (t.lowered .legacy).choices = [] → t.lowered .legacy = t := by
  induction t using Tree.ind with
  | constant v | reference g => exact fun _ => rfl
  | negation a iha =>
    rw [lowered, choices_eq_nil_iff]
    exact fun h => by rw [iha (h.2 _ (by simp [children]))]
  | binary op a b iha ihb =>
    rw [lowered, choices_eq_nil_iff]
    exact fun h => by rw [iha (h.2 _ (by simp [children])), ihb (h.2 _ (by simp [children]))]
  | assign g a iha =>
    rw [lowered, choices_eq_nil_iff]
    exact fun h => by rw [iha (h.2 _ (by simp [children]))]
  | write a newline iha =>
    rw [lowered, choices_eq_nil_iff]
    exact fun h => by rw [iha (h.2 _ (by simp [children]))]
  | choice c a | choiceElse c a b =>
    rw [lowered, choices_eq_nil_iff]
    exact fun h => absurd h.1 Bool.noConfusion
  | loop c a ihc iha =>
    rw [lowered, choices_eq_nil_iff]
    exact fun h => by rw [ihc (h.2 _ (by simp [children])), iha (h.2 _ (by simp [children]))]
  | block ts ih =>
    rw [lowered, loweredAll_eq, choices_eq_nil_iff]
    intro h
    have hself : ∀ u ∈ ts, u.lowered .legacy = u :=
      fun u hu => ih u hu (h.2 _ (List.mem_map_of_mem hu))
    rw [List.map_congr_left hself, List.map_id']

end Tree

/-! ## 3. The check of labels -/

/-- The first of some elements that a test picks out is the first of those that it is true of. -/
theorem find?_of_sublist {α : Type} {p : α → Bool} {picked as : List α} (h : picked.Sublist as)
    (hn : as.Nodup) (hp : ∀ a ∈ as, p a = true ↔ a ∈ picked) : as.find? p = picked.head? := by
  induction h with
  | slnil => rfl
  | @cons picked as a hsub ih =>
    rw [List.nodup_cons] at hn
    have ha : p a ≠ true := fun h => hn.1 (hsub.subset ((hp a List.mem_cons_self).mp h))
    rw [List.find?_cons_of_neg ha]
    exact ih hn.2 fun x hx => hp x (List.mem_cons_of_mem a hx)
  | @cons_cons picked as a hsub ih =>
    have ha : p a = true := (hp a List.mem_cons_self).mpr List.mem_cons_self
    rw [List.find?_cons_of_pos ha]
    rfl

/-- **Jumps whose labels are missing are reported in their order.**  The labels are distinct, and
the jumps go to attached labels and to missing ones: then the first jump to a missing label is reported,
if there is one. -/
theorem checkPairing_of_missing {attached targets missing : List Label}
    (hn : (missing ++ attached).Nodup) (ht : targets.Nodup)
    (hsub : ∀ l ∈ targets, l ∈ missing ++ attached) (hm : missing.Sublist targets) :
    checkPairing attached targets =
      missing.head?.elim (.ok ()) fun l => .error (.danglingLabel l) := by
  obtain ⟨-, hattached, hdisjoint⟩ := List.nodup_append.mp hn
  have hrepeat : firstRepeat? [] attached = none :=
    firstRepeat?_nil_eq_none_iff.mpr hattached
  have hfind : targets.find? (fun l => l ∉ attached) = missing.head? := by
    refine find?_of_sublist hm ht fun l hl => ?_
    rw [decide_eq_true_iff]
    constructor
    · intro hnot
      exact (List.mem_append.mp (hsub l hl)).resolve_right hnot
    · intro hmem hatt
      exact hdisjoint l hmem l hatt rfl
  rw [checkPairing, hrepeat]
  simp only [hfind]
  cases missing.head? <;> rfl

namespace Builder

/-- Builders side by side without labels to remove are the same. -/
theorem Thins.eq_of_nil {base s l : Builder} {n : Nat} (h : Thins base n [] s l) : s = l := by
  obtain ⟨seg, seg', removed, hs, hl, hperm, hremoves⟩ := h.code
  obtain rfl := hperm.eq_nil
  have hcode : s.code = l.code := by rw [hs, hl, hremoves.eq_of_nil]
  cases s
  cases l
  simp only [Builder.mk.injEq]
  exact ⟨h.table, h.whole.trans h.thinned.symm, hcode⟩

/-- The conditional jumps are in both codes. -/
theorem Thins.exits {base s l : Builder} {n : Nat} {ls ls' : List Label}
    (h : Thins base n ls s l) (hexits : Exits ls' base s) : Exits ls' base l := by
  obtain ⟨seg, seg', removed, hs, hl, -, hremoves⟩ := h.code
  obtain ⟨seg₁, hs', hsub⟩ := hexits
  obtain rfl : seg = seg₁ := List.append_cancel_left (hs.symm.trans hs')
  have hsame : seg'.filterMap Instruction.exit? = seg.filterMap Instruction.exit? :=
    hremoves.filterMap_eq fun _ => rfl
  exact ⟨seg', hl, hsame ▸ hsub⟩

/-- **What the check says of legacy code** that stands beside closed code: it reports the first jump
whose label was removed, if any was. -/
theorem Thins.check {table : Table} {s l : Builder} {k : Nat} {ls : List Label}
    (h : Thins (.ofTable table) k ls s l) (hclosed : Closes k (.ofTable table) s)
    (hexits : Exits ls (.ofTable table) s) (hfit : k ≤ UInt64.size) :
    l.program.check = ls.head?.elim (.ok ()) fun x => .error (.danglingLabel x) := by
  obtain ⟨A, T, ⟨-, seg, hcode, rfl, rfl⟩, hA, hT⟩ := hclosed
  obtain ⟨seg₁, seg', removed, hs, hl, hperm, hremoves⟩ := h.code
  obtain ⟨seg₂, hs', hsub⟩ := hexits
  obtain rfl : seg = seg₁ := List.append_cancel_left (hcode.symm.trans hs)
  obtain rfl : seg = seg₂ := List.append_cancel_left (hcode.symm.trans hs')
  have hlabels : (ls ++ seg'.filterMap Instruction.label).Perm (Label.run 0 k) :=
    ((hperm.append_right _).symm.trans hremoves.attached_perm.symm).trans hA
  have hrun : (Label.run 0 k).Nodup := Label.run_nodup (by omega)
  have htargets : seg'.filterMap Instruction.target? = seg.filterMap Instruction.target? :=
    hremoves.filterMap_eq fun _ => rfl
  have hcode' : l.code = seg' := hl
  rw [program, Program.check, checkLabels, hcode', htargets]
  refine checkPairing_of_missing (hlabels.nodup_iff.mpr hrun) (hT.nodup_iff.mpr hrun) ?_ ?_
  · exact fun x hx => hlabels.mem_iff.mpr (hT.mem_iff.mp hx)
  · exact hsub.trans (exits_sublist seg)

end Builder

/-! ## 4. The layouts -/

namespace Tree
open Builder

variable {table : Table} {r : Option Handle} {l : Builder}

/-- A success in the legacy layout is one in the structured layout of what the legacy one lowers. -/
theorem lower_structured_of_legacy {t : Tree} {b : Builder} (h : t.lower .legacy b = .ok r l) :
    ∃ s, (t.lowered .legacy).lower .structured b = .ok r s ∧
      Thins b (b.nextLabel + (t.lowered .legacy).labelCount)
        ((t.lowered .legacy).falseLabels b.nextLabel) s l := by
  have hpair := t.lower_pairs (.refl b)
  rw [h, List.nil_append] at hpair
  generalize hrun : (t.lowered .legacy).lower .structured b = p at hpair
  cases hpair with
  | ok hQ =>
    obtain ⟨rfl, hthins⟩ := hQ
    exact ⟨_, rfl, hthins⟩

/-- The check of legacy code reports the first choice that was lowered. -/
theorem check_legacy {t : Tree} (h : t.lower .legacy (.ofTable table) = .ok r l)
    (hfit : l.nextLabel ≤ UInt64.size) : l.program.check =
      ((t.lowered .legacy).falseLabels 0).head?.elim (.ok ()) fun x =>
        .error (.danglingLabel x) := by
  obtain ⟨s, hs, hthins⟩ := lower_structured_of_legacy h
  rw [hthins.thinned] at hfit
  have hzero : (Builder.ofTable table).nextLabel = 0 := rfl
  rw [hzero, Nat.zero_add] at hthins hfit
  exact hthins.check (lower_closes _ hs) (lower_exits _ hs) hfit

/-- Without choices the layouts compile alike. -/
theorem compile_legacy_eq {t : Tree} (h : (t.lowered .legacy).choices = []) (pairLabels : Bool)
    (table : Table) :
    t.compile ⟨.legacy, pairLabels⟩ table = t.compile ⟨.structured, pairLabels⟩ table := by
  have hpair := t.lower_pairs (.refl (.ofTable table))
  rw [falseLabels, falseJumps_eq_nil h, lowered_of_choices_eq_nil h] at hpair
  unfold compile
  cases t.check with
  | error e => rfl
  | ok =>
    generalize t.lower .structured (.ofTable table) = p at hpair
    generalize t.lower .legacy (.ofTable table) = q at hpair
    cases hpair with
    | ok hQ =>
      obtain ⟨rfl, hthins⟩ := hQ
      obtain rfl := hthins.eq_of_nil
      rfl
    | error hlevel =>
      simp only [hlevel.1]

/-- A legacy compilation of an accepted tree reports the first choice that was lowered. -/
theorem compile_legacy {t : Tree} (hc : t.check = .ok ())
    (h : t.lower .legacy (.ofTable table) = .ok r l) (hfit : l.nextLabel ≤ UInt64.size) :
    t.compile ⟨.legacy, true⟩ table =
      ((t.lowered .legacy).falseJumps 0).head?.elim (.ok l.program l.table)
        fun jump => .error (.danglingLabel jump.2) l.table := by
  have hcheck := check_legacy h hfit
  rw [falseLabels, List.head?_map] at hcheck
  simp only [compile, hc, h, if_true, hcheck]
  cases ((t.lowered .legacy).falseJumps 0).head? <;> rfl

/-- The first choice in what is lowered of an accepted tree is the first that jumps. -/
theorem find?_isChoice_lowered {t : Tree} (hc : t.check = .ok ()) :
    (t.lowered .legacy).subtrees.find? isChoice =
      ((t.lowered .legacy).falseJumps 0).head?.map Prod.fst := by
  rw [← List.head?_filter, ← List.head?_map, falseJumps_eq_choices (check_lowered .legacy hc) 0,
    choices]

/-- **Legacy code fails the check of labels just when there is a choice in it**, and then because of
the first one. -/
theorem compile_legacy_dangling {t : Tree} (hc : t.check = .ok ())
    (h : t.lower .legacy (.ofTable table) = .ok r l) (hfit : l.nextLabel ≤ UInt64.size) :
    ((∃ e table', t.compile ⟨.legacy, true⟩ table = .error e table') ↔
        ∃ u ∈ (t.lowered .legacy).subtrees, u.isChoice = true) ∧
      ∀ e table', t.compile ⟨.legacy, true⟩ table = .error e table' →
        ∃ u x, (t.lowered .legacy).subtrees.find? isChoice = some u ∧
          ((t.lowered .legacy).falseJumps 0).head? = some (u, x) ∧ e = .danglingLabel x := by
  have hcompile := compile_legacy hc h hfit
  have hfirst := find?_isChoice_lowered hc
  cases hjump : ((t.lowered .legacy).falseJumps 0).head? with
  | none =>
    rw [hjump] at hcompile hfirst
    have hnone := List.find?_eq_none.mp hfirst
    refine ⟨⟨?_, fun ⟨u, hu, hchoice⟩ => absurd hchoice (hnone u hu)⟩, ?_⟩
    · rintro ⟨e, table', he⟩
      exact nomatch hcompile.symm.trans he
    · exact fun e table' he => nomatch hcompile.symm.trans he
  | some jump =>
    rw [hjump] at hcompile hfirst
    refine ⟨⟨fun _ => ?_, fun _ => ⟨_, _, hcompile⟩⟩, fun e table' he => ?_⟩
    · exact ⟨jump.1, List.mem_of_find?_eq_some hfirst, List.find?_some hfirst⟩
    · cases hcompile.symm.trans he
      exact ⟨jump.1, jump.2, hfirst, rfl, rfl⟩

/-- **The legacy layout against the structured one.**  What the legacy layout lowers of a tree, the
structured one lowers side by side with it: from any builder both fail with one error, or both
succeed with one result, table and next label, and the legacy code is the structured code without an
instruction that carries the label of a false jump for each choice in what is lowered.  The jumps
themselves are in the legacy code.

So a legacy compilation of an accepted tree that checks labels fails just when a choice is lowered,
and it reports the label of the first one.  When none is, the two layouts compile alike. -/
theorem legacy_layout (t : Tree) :
    (∀ b, Alike Level (fun r s r' l => r = r' ∧
          Thins b (b.nextLabel + (t.lowered .legacy).labelCount)
            ((t.lowered .legacy).falseLabels b.nextLabel) s l ∧
          Exits ((t.lowered .legacy).falseLabels b.nextLabel) b l)
        ((t.lowered .legacy).lower .structured b) (t.lower .legacy b)) ∧
      (∀ next, (((t.lowered .legacy).falseJumps next).map Prod.fst).Perm
        (t.lowered .legacy).choices) ∧
      (∀ table r l, t.check = .ok () → t.lower .legacy (.ofTable table) = .ok r l →
        l.nextLabel ≤ UInt64.size →
          ((∃ e table', t.compile ⟨.legacy, true⟩ table = .error e table') ↔
            ∃ u ∈ (t.lowered .legacy).subtrees, u.isChoice = true) ∧
          ∀ e table', t.compile ⟨.legacy, true⟩ table = .error e table' →
            ∃ u x, (t.lowered .legacy).subtrees.find? isChoice = some u ∧
              ((t.lowered .legacy).falseJumps 0).head? = some (u, x) ∧ e = .danglingLabel x) ∧
      ((∀ u ∈ (t.lowered .legacy).subtrees, u.isChoice = false) → ∀ pairLabels table,
        t.compile ⟨.legacy, pairLabels⟩ table = t.compile ⟨.structured, pairLabels⟩ table) := by
  refine ⟨fun b => ?_, falseJumps_perm _, fun table r l => compile_legacy_dangling, fun hnone => ?_⟩
  · have hpair := t.lower_pairs (.refl b)
    rw [List.nil_append] at hpair
    generalize hs : (t.lowered .legacy).lower .structured b = p at hpair
    generalize t.lower .legacy b = q at hpair
    cases hpair with
    | ok hQ =>
      obtain ⟨rfl, hthins⟩ := hQ
      exact .ok ⟨rfl, hthins, hthins.exits (lower_exits _ hs)⟩
    | error hlevel => exact .error hlevel
  · exact compile_legacy_eq (List.filter_eq_nil_iff.mpr fun u hu => by simp [hnone u hu])

/-- The theorem at work on choices in a loop, which takes the labels 0 and 1.  The first choice is
the outer one, and its label is 2; the choice in its other branch takes none.  Without its choices
the loop compiles alike in both layouts. -/
theorem legacy_layout_nested :
    let x : Handle := ⟨"x", .integer⟩
    let small : Tree := .binary (.comparison .less) (.reference x) (.constant (.integer 9))
    let inner : Tree := .choice small (.write (.reference x) true)
    let t : Tree :=
      .block [.write (.reference x) false, .loop small (.choiceElse small inner inner)]
    let plain : Tree := .loop small (.write (.reference x) true)
    let table : Table := ⟨[⟨"x", .integer, .integer 5⟩], "_tempVar", 0⟩
    (t.check = .ok () ∧
      ∃ r l, t.lower .legacy (.ofTable table) = .ok r l ∧ l.nextLabel = 5 ∧
        ∃ table', t.compile ⟨.legacy, true⟩ table = .error (.danglingLabel ⟨2⟩) table') ∧
      (∀ u ∈ (plain.lowered .legacy).subtrees, u.isChoice = false) ∧
      plain.compile ⟨.legacy, true⟩ table = plain.compile ⟨.structured, true⟩ table := by
  intro x small inner t plain table
  have hplain : ∀ u ∈ (plain.lowered .legacy).subtrees, u.isChoice = false := by
    have hall : (plain.lowered .legacy).subtrees.all (fun u => !u.isChoice) = true := by
      decide +kernel
    simpa using hall
  have hcheck : t.check = .ok () := rfl
  have hrun : ((t.lower .legacy).run' (.ofTable table)).isSome = true := by decide +kernel
  have hnext : (leaves (t.lower .legacy) (.ofTable table)).nextLabel = 5 := by decide +kernel
  obtain ⟨r, l, h, hn⟩ : ∃ r l, t.lower .legacy (.ofTable table) = .ok r l ∧ l.nextLabel = 5 := by
    cases h : t.lower .legacy (.ofTable table) with
    | ok r l => exact ⟨r, l, rfl, (congrArg Builder.nextLabel (leaves_of_ok h)).symm.trans hnext⟩
    | error e l =>
      delta EStateM.run' EStateM.run at hrun
      rw [h] at hrun
      cases hrun
  obtain ⟨-, -, hdangling, -⟩ := legacy_layout t
  obtain ⟨hfails, herror⟩ := hdangling table r l hcheck h (by rw [hn]; decide)
  have hsome : (t.lowered .legacy).subtrees.any isChoice = true := by decide +kernel
  obtain ⟨e, table', he⟩ := hfails.mpr (by simpa using hsome)
  obtain ⟨u, y, -, hjump, rfl⟩ := herror e table' he
  have hlabel : ((t.lowered .legacy).falseJumps 0).head?.map Prod.snd = some ⟨2⟩ := by
    decide +kernel
  rw [hjump] at hlabel
  obtain rfl : y = ⟨2⟩ := Option.some.inj hlabel
  exact ⟨⟨hcheck, r, l, h, hn, table', he⟩, hplain,
    (legacy_layout plain).2.2.2 hplain true table⟩

end Tree
end ProcTree
