/-
# The two layouts of choices

The legacy layout differs from the structured one in two ways: it leaves out the other branch of a
choice, and it does not attach the label that a false condition jumps to.  The first difference is
one of trees (`Tree.lowered`).  This file is about the second one: on what the legacy layout lowers,
both layouts run side by side, and the legacy code is the structured code without the instructions
that carry those labels.

* `Removes`: one code is another without instructions that carry some labels.
* `Builder.Thins`: two builders that went on from a common one, to the same table and label.  Every
  step that looks at the table and the next label only keeps them side by side.
* `Tree.falseJumps`: the choices of a tree with the labels that their false conditions jump to.
* `Tree.lower_pairs`: the two layouts stay side by side, and these labels are the ones that come to
  be missing.
-/
import ProcTree.Proofs.Lowering.Correspondence
import ProcTree.Proofs.Lowering.Extension
import ProcTree.Proofs.Lowering.Pairing

namespace ProcTree

/-! ## 1. Code without some labels -/

/-- The second code is the first one without some instructions that do nothing.  The labels that
these carry are listed in order. -/
inductive Removes : List Label → List Instruction → List Instruction → Prop
  | nil : Removes [] [] []
  | keep (i : Instruction) {ls : List Label} {code rest : List Instruction}
    (h : Removes ls code rest) : Removes ls (i :: code) (i :: rest)
  | drop (l : Label) {ls : List Label} {code rest : List Instruction}
    (h : Removes ls code rest) : Removes (l :: ls) (.carrier l :: code) rest

namespace Removes

variable {ls ls' : List Label} {code code' rest rest' : List Instruction}

theorem append (h : Removes ls code rest) (h' : Removes ls' code' rest') :
    Removes (ls ++ ls') (code ++ code') (rest ++ rest') := by
  induction h with
  | nil => exact h'
  | keep i _ ih => exact .keep i ih
  | drop l _ ih => exact .drop l ih

/-- Both codes go on with one instruction. -/
theorem push (h : Removes ls code rest) (i : Instruction) :
    Removes ls (code ++ [i]) (rest ++ [i]) := by
  simpa using h.append (.keep i .nil)

/-- Only the first code goes on, with a label. -/
theorem pushCarrier (h : Removes ls code rest) (l : Label) :
    Removes (ls ++ [l]) (code ++ [.carrier l]) rest := by
  simpa using h.append (.drop l .nil)

/-- Without labels to remove, the codes are the same. -/
theorem eq_of_nil (h : Removes [] code rest) : rest = code := by
  generalize hls : ([] : List Label) = ls at h
  induction h with
  | nil => rfl
  | keep i _ ih => rw [ih hls]
  | drop l _ _ => cases hls

/-- What instructions that do nothing do not have is the same in both codes. -/
theorem filterMap_eq {f : Instruction → Option Label} (hf : ∀ l, f (.carrier l) = none)
    (h : Removes ls code rest) : rest.filterMap f = code.filterMap f := by
  induction h with
  | nil => rfl
  | keep i _ ih => rw [List.filterMap_cons, List.filterMap_cons, ih]
  | drop l _ ih => rw [List.filterMap_cons_none (hf l), ih]

/-- The attached labels are those removed and those that remain. -/
theorem attached_perm (h : Removes ls code rest) :
    (code.filterMap Instruction.label).Perm (ls ++ rest.filterMap Instruction.label) := by
  induction h with
  | nil => exact .refl []
  | keep i _ ih =>
    cases hi : i.label with
    | none => simpa [hi] using ih
    | some l => simpa [hi] using (ih.cons l).trans List.perm_middle.symm
  | drop l _ ih => exact ih.cons l

end Removes

/-! ## 2. Builders side by side -/

namespace Builder

/-- The builders have the same table and the same next label. -/
def Level (s l : Builder) : Prop := s.table = l.table ∧ s.nextLabel = l.nextLabel

/-- Both builders have gone on from the first one, to the same table and to the same next label.
The code that the last one has added is what the other one has added without instructions that
carry these labels. -/
structure Thins (base : Builder) (next : Nat) (ls : List Label) (s l : Builder) : Prop where
  table : s.table = l.table
  whole : s.nextLabel = next
  thinned : l.nextLabel = next
  code : ∃ seg seg' removed, s.code = base.code ++ seg ∧ l.code = base.code ++ seg' ∧
    removed.Perm ls ∧ Removes removed seg seg'

namespace Thins

variable {base s l : Builder} {n : Nat} {ls ls' : List Label}

theorem refl (b : Builder) : Thins b b.nextLabel [] b b :=
  ⟨rfl, rfl, rfl, [], [], [], by simp, by simp, .refl [], .nil⟩

theorem level (h : Thins base n ls s l) : Level s l := ⟨h.table, h.whole.trans h.thinned.symm⟩

theorem perm (h : Thins base n ls s l) (hp : ls.Perm ls') : Thins base n ls' s l := by
  obtain ⟨seg, seg', removed, hs, hl, hr, hcode⟩ := h.code
  exact ⟨h.table, h.whole, h.thinned, seg, seg', removed, hs, hl, hr.trans hp, hcode⟩

theorem push (h : Thins base n ls s l) (i : Instruction) :
    Thins base n ls (s.push i) (l.push i) := by
  obtain ⟨seg, seg', removed, hs, hl, hr, hcode⟩ := h.code
  refine ⟨h.table, h.whole, h.thinned, seg ++ [i], seg' ++ [i], removed, ?_, ?_, hr,
    hcode.push i⟩
  · rw [code_push, hs, List.append_assoc]
  · rw [code_push, hl, List.append_assoc]

/-- A label that only the first of the two builders attaches. -/
theorem pushCarrier (h : Thins base n ls s l) (x : Label) :
    Thins base n (ls ++ [x]) (s.push (.carrier x)) l := by
  obtain ⟨seg, seg', removed, hs, hl, hr, hcode⟩ := h.code
  refine ⟨h.table, h.whole, h.thinned, seg ++ [.carrier x], seg', removed ++ [x], ?_, hl,
    hr.append_right [x], hcode.pushCarrier x⟩
  rw [code_push, hs, List.append_assoc]

theorem withTable (h : Thins base n ls s l) (table : Table) :
    Thins base n ls { s with table } { l with table } :=
  ⟨rfl, h.whole, h.thinned, h.code⟩

theorem withTemp (h : Thins base n ls s l) (v : Value) :
    Thins base n ls (s.withTemp v) (l.withTemp v) := by
  unfold Builder.withTemp
  rw [h.table]
  exact h.withTable _

theorem takeLabel (h : Thins base n ls s l) :
    Thins base (n + 1) ls s.takeLabel l.takeLabel :=
  ⟨h.table, congrArg (· + 1) h.whole, congrArg (· + 1) h.thinned, h.code⟩

end Thins
end Builder

/-! ## 3. Steps that both builders take -/

namespace Lowering
open Builder

variable {base s l : Builder} {n : Nat} {ls : List Label}

theorem respects_append (i : Instruction) :
    Respects (Thins base n ls) (append i) (append i) := fun _ _ h => .ok ⟨rfl, h.push i⟩

theorem respects_tempOf (v : Value) :
    Respects (Thins base n ls) (tempOf v) (tempOf v) := by
  intro s l h
  rw [tempOf_apply, tempOf_apply, Builder.freshName, Builder.freshName, h.table]
  exact .ok ⟨rfl, h.withTemp v⟩

theorem respects_temp (ty : Ty) : Respects (Thins base n ls) (temp ty) (temp ty) := by
  intro s l h
  cases ty with
  | none =>
    rw [temp_none, temp_none, Builder.freshName, Builder.freshName, h.table]
    exact .error (h.withTable _)
  | some k =>
    rw [temp_some, temp_some, Builder.freshName, Builder.freshName, h.table]
    exact .ok ⟨rfl, h.withTemp _⟩

theorem respects_lookup (name : String) :
    Respects (Thins base n ls) (lookup name) (lookup name) := by
  intro s l h
  cases hl : l.table.lookup name with
  | error e =>
    rw [lookup_of_error hl, lookup_of_error (h.table ▸ hl)]
    exact .error h
  | ok g =>
    rw [lookup_of_ok hl, lookup_of_ok (h.table ▸ hl)]
    exact .ok ⟨rfl, h⟩

/-- Operators and assignments keep the builders side by side. -/
theorem corresponds_thins : Corresponds id (Thins base n ls) where
  append i := by
    rw [Instruction.rename_id]
    exact respects_append i
  temp k := respects_temp (some k)

theorem respects_negated (source : Handle) :
    Respects (Thins base n ls) (negated source) (negated source) :=
  (corresponds_thins.negated source).mono fun _ _ h => by simpa using h

theorem respects_combined (op : Operator) (s t : Ty) (left right : Handle) :
    Respects (Thins base n ls) (combined op (op.resultTy s t) left right)
      (combined op (op.resultTy s t) left right) :=
  (corresponds_thins.combined op s t left right).mono fun _ _ h => by simpa using h

theorem respects_copy (target source : Handle) :
    Respects (Thins base n ls) (copy target source) (copy target source) :=
  corresponds_thins.copy source rfl

theorem respects_needed (construct : String) (r : Option Handle) :
    Respects (Thins base n ls) (needed construct r) (needed construct r) := by
  cases r with
  | none => exact Respects.throw _
  | some h => exact Respects.pure h

/-- Both computations have the same result and leave builders side by side, or they fail with the
same error, and with the same table and next label. -/
def Together (base : Builder) (n : Nat) (ls : List Label) {α : Type}
    (x y : EStateM.Result Error Builder α) : Prop :=
  Alike Level (fun a s b l => a = b ∧ Thins base n ls s l) x y

variable {α β : Type} {n' : Nat} {ls' : List Label}

theorem Together.of_respects {x : Lowering α} (h : Thins base n ls s l)
    (hx : Respects (Thins base n ls) x x) : Together base n ls (x s) (x l) :=
  (hx s l h).mono (fun _ _ h => h.level) fun _ _ _ _ h => h

/-- Computations that stay side by side, and then what is done with their result. -/
theorem Together.bind {x y : Lowering α} {f g : α → Lowering β}
    (h : Together base n ls (x s) (y l))
    (hrest : ∀ a s' l', Thins base n ls s' l' → Together base n' ls' (f a s') (g a l')) :
    Together base n' ls' ((x >>= f) s) ((y >>= g) l) := by
  refine Alike.bind h ?_
  rintro a s' _ l' ⟨rfl, h'⟩
  exact hrest a s' l' h'

theorem Together.discard {x y : Lowering α} (h : Together base n ls (x s) (y l)) :
    Together base n ls (Functor.discard x s) (Functor.discard y l) := by
  refine (Alike.discard h).mono (fun _ _ h => h) ?_
  rintro u s' v l' ⟨rfl, a, b, -, h'⟩
  exact ⟨rfl, h'⟩

/-- An operand, and then what is done with its variable. -/
theorem Together.operand {construct : String} {x y : Lowering (Option Handle)}
    {f g : Handle → Lowering β} (h : Together base n ls (x s) (y l))
    (hrest : ∀ a s' l', Thins base n ls s' l' → Together base n' ls' (f a s') (g a l')) :
    Together base n' ls' ((x >>= fun r => needed construct r >>= f) s)
      ((y >>= fun r => needed construct r >>= g) l) :=
  h.bind fun r _ _ h' => (Together.of_respects h' (respects_needed construct r)).bind hrest

/-- A label that both take is the same. -/
theorem together_label {f g : Label → Lowering β} (h : Thins base n ls s l)
    (hrest : ∀ s' l', Thins base (n + 1) ls s' l' →
      Together base n' ls' (f ⟨UInt64.ofNat n⟩ s') (g ⟨UInt64.ofNat n⟩ l')) :
    Together base n' ls' ((newLabel >>= f) s) ((newLabel >>= g) l) := by
  rw [bind_of_ok (newLabel_apply s), bind_of_ok (newLabel_apply l), Builder.label, Builder.label,
    h.whole, h.thinned]
  exact hrest _ _ h.takeLabel

/-- An instruction that both add. -/
theorem together_append {i : Instruction} {f g : Unit → Lowering β} (h : Thins base n ls s l)
    (hrest : ∀ s' l', Thins base n ls s' l' → Together base n' ls' (f () s') (g () l')) :
    Together base n' ls' ((append i >>= f) s) ((append i >>= g) l) :=
  hrest _ _ (h.push i)

theorem together_pure (a : α) (h : Thins base n ls s l) :
    Together base n ls ((pure a : Lowering α) s) ((pure a : Lowering α) l) := .ok ⟨rfl, h⟩

end Lowering

/-! ## 4. The jumps away from false conditions -/

namespace Tree
open Lowering Builder

/-- A choice, with one branch or with two. -/
def isChoice : Tree → Bool
  | .choice .. | .choiceElse .. => true
  | _ => false

mutual

/-- The choices of a tree that is lowered when this is the number of the next label, each with the
label that its false condition jumps to.  They are listed in the order of their jumps in the code: a
choice takes its label after its condition is lowered, and before its branches are. -/
def falseJumps (next : Nat) : Tree → List (Tree × Label)
  | .constant _ | .reference _ => []
  | .negation a | .assign _ a | .write a _ => a.falseJumps next
  | .binary _ a b => a.falseJumps next ++ b.falseJumps (next + a.labelCount)
  | .choice c a =>
    c.falseJumps next ++ (.choice c a, ⟨UInt64.ofNat (next + c.labelCount)⟩) ::
      a.falseJumps (next + c.labelCount + 1)
  | .choiceElse c a b =>
    c.falseJumps next ++ (.choiceElse c a b, ⟨UInt64.ofNat (next + c.labelCount)⟩) ::
      (a.falseJumps (next + c.labelCount + 2) ++
        b.falseJumps (next + c.labelCount + 2 + a.labelCount))
  | .loop c a => c.falseJumps (next + 2) ++ a.falseJumps (next + 2 + c.labelCount)
  | .block ts => falseJumpsAll next ts

/-- The choices of trees that are lowered one after another. -/
def falseJumpsAll (next : Nat) : List Tree → List (Tree × Label)
  | [] => []
  | t :: ts => t.falseJumps next ++ falseJumpsAll (next + t.labelCount) ts

end

/-- The labels that false conditions jump to. -/
def falseLabels (next : Nat) (t : Tree) : List Label := (t.falseJumps next).map Prod.snd

theorem labelCount_negation (a : Tree) : (Tree.negation a).labelCount = a.labelCount := by
  simp [labelCount_eq (.negation a), rootLabels, children]

theorem labelCount_binary (op : Operator) (a b : Tree) :
    (Tree.binary op a b).labelCount = a.labelCount + b.labelCount := by
  simp [labelCount_eq (.binary op a b), rootLabels, children]

theorem labelCount_assign (h : Handle) (a : Tree) :
    (Tree.assign h a).labelCount = a.labelCount := by
  simp [labelCount_eq (.assign h a), rootLabels, children]

theorem labelCount_write (a : Tree) (newline : Bool) :
    (Tree.write a newline).labelCount = a.labelCount := by
  simp [labelCount_eq (.write a newline), rootLabels, children]

theorem labelCount_choice (c a : Tree) :
    (Tree.choice c a).labelCount = c.labelCount + 1 + a.labelCount := by
  simp only [labelCount_eq (.choice c a), rootLabels, children, List.map_cons, List.map_nil,
    List.sum_cons, List.sum_nil]
  omega

theorem labelCount_choiceElse (c a b : Tree) :
    (Tree.choiceElse c a b).labelCount = c.labelCount + 2 + a.labelCount + b.labelCount := by
  simp only [labelCount_eq (.choiceElse c a b), rootLabels, children, List.map_cons, List.map_nil,
    List.sum_cons, List.sum_nil]
  omega

theorem labelCount_loop (c a : Tree) :
    (Tree.loop c a).labelCount = 2 + c.labelCount + a.labelCount := by
  simp only [labelCount_eq (.loop c a), rootLabels, children, List.map_cons, List.map_nil,
    List.sum_cons, List.sum_nil]
  omega

theorem labelCount_block_nil : (Tree.block []).labelCount = 0 := rfl

theorem labelCount_block_cons (t : Tree) (ts : List Tree) :
    (Tree.block (t :: ts)).labelCount = t.labelCount + (Tree.block ts).labelCount := by
  simp [labelCount_eq (.block (t :: ts)), labelCount_eq (.block ts), rootLabels, children]

/-! ## 5. Trees -/

variable {base s l : Builder} {n : Nat} {ls : List Label}

/-- Lowered in the two layouts, what the legacy layout lowers of the tree stays side by side, and
the labels of its choices are those that come to be missing. -/
def Pairs (t : Tree) : Prop := ∀ {base s l : Builder} {n : Nat} {ls : List Label},
  Thins base n ls s l →
    Together base (n + (t.lowered .legacy).labelCount)
      (ls ++ (t.lowered .legacy).falseLabels n)
      ((t.lowered .legacy).lower .structured s) (t.lower .legacy l)

/-- The labels of the children in order are those of the tree, in another order or counted
otherwise. -/
theorem together_of_perm {α : Type} {x y : EStateM.Result Error Builder α} {n n' : Nat}
    {ls ls' : List Label} (h : Together base n ls x y) (hn : n = n') (hp : ls.Perm ls') :
    Together base n' ls' x y :=
  hn ▸ h.mono (fun _ _ h => h) fun _ _ _ _ h => ⟨h.1, h.2.perm hp⟩

/-- What both do last. -/
theorem together_none {x : Lowering Unit} (h : Thins base n ls s l)
    (hx : Respects (Thins base n ls) x x) :
    Together base n ls ((x >>= fun _ => pure (none : Option Handle)) s)
      ((x >>= fun _ => pure (none : Option Handle)) l) :=
  (Together.of_respects h hx).bind fun _ _ _ h' => together_pure none h'

theorem pairs_choice {c a : Tree} (hc : c.Pairs) (ha : a.Pairs) : (Tree.choice c a).Pairs := by
  intro base s l n ls h
  rw [lowered, lower_choice_layout, lower_choice_layout]
  refine (hc h).operand fun condition s₁ l₁ h₁ => ?_
  refine together_label h₁ fun s₂ l₂ h₂ => together_append h₂ fun s₃ l₃ h₃ => ?_
  refine (ha h₃).discard.bind fun _ s₄ l₄ h₄ => ?_
  -- The label stands behind the branch and comes first among the labels of the code behind it.
  have hend := h₄.pushCarrier ⟨UInt64.ofNat (n + (c.lowered .legacy).labelCount)⟩
  refine together_of_perm (together_pure none hend) (by rw [labelCount_choice]; omega) ?_
  simp only [falseLabels, falseJumps, List.map_append, List.map_cons, List.append_assoc]
  exact ((List.perm_append_comm).append_left _).append_left _

theorem pairs_choiceElse {c a b : Tree} (hc : c.Pairs) (ha : a.Pairs) :
    (Tree.choiceElse c a b).Pairs := by
  intro base s l n ls h
  rw [lowered, lower_choiceElse_layout, lower_choiceElse_layout, if_neg (by decide)]
  refine (hc h).operand fun condition s₁ l₁ h₁ => ?_
  refine together_label h₁ fun s₂ l₂ h₂ => together_label h₂ fun s₃ l₃ h₃ => ?_
  refine together_append h₃ fun s₄ l₄ h₄ => ?_
  refine (ha h₄).discard.bind fun _ s₅ l₅ h₅ => together_append h₅ fun s₆ l₆ h₆ => ?_
  have hend := h₆.pushCarrier ⟨UInt64.ofNat (n + (c.lowered .legacy).labelCount)⟩
  have hlast := together_none hend (respects_append
    (.carrier ⟨UInt64.ofNat (n + (c.lowered .legacy).labelCount + 1)⟩))
  refine together_of_perm hlast (by rw [labelCount_choiceElse, labelCount_block_nil]; omega) ?_
  simp only [falseLabels, falseJumps, falseJumpsAll, List.map_append, List.map_cons,
    List.append_assoc, List.append_nil]
  exact ((List.perm_append_comm).append_left _).append_left _

theorem pairs_loop {c a : Tree} (hc : c.Pairs) (ha : a.Pairs) : (Tree.loop c a).Pairs := by
  intro base s l n ls h
  rw [lowered, lower_loop, lower_loop]
  refine together_label h fun s₁ l₁ h₁ => together_label h₁ fun s₂ l₂ h₂ => ?_
  refine together_append h₂ fun s₃ l₃ h₃ => (hc h₃).operand fun condition s₄ l₄ h₄ => ?_
  refine together_append h₄ fun s₅ l₅ h₅ => (ha h₅).discard.bind fun _ s₆ l₆ h₆ => ?_
  refine together_append h₆ fun s₇ l₇ h₇ => ?_
  refine together_of_perm (together_none h₇ (respects_append _)) ?_ ?_
  · rw [labelCount_loop]
    omega
  · simp only [falseLabels, falseJumps, List.map_append, List.append_assoc]
    exact .refl _

theorem pairs_block {ts : List Tree} (hts : ∀ t ∈ ts, t.Pairs) : (Tree.block ts).Pairs := by
  have all : ∀ us, us ⊆ ts → ∀ {base s l : Builder} {n : Nat} {ls : List Label},
      Thins base n ls s l →
        Together base (n + (Tree.block (loweredAll .legacy us)).labelCount)
          (ls ++ (Tree.block (loweredAll .legacy us)).falseLabels n)
          (lowerAll .structured (loweredAll .legacy us) s) (lowerAll .legacy us l) := by
    intro us
    induction us with
    | nil =>
      intro _ base s l n ls h
      exact together_of_perm (together_pure () h) rfl
        (by simp [loweredAll, falseLabels, falseJumps, falseJumpsAll])
    | cons u us ihus =>
      intro hus base s l n ls h
      refine (hts u (hus List.mem_cons_self) h).discard.bind fun _ s₁ l₁ h₁ => ?_
      refine together_of_perm (ihus (List.subset_of_cons_subset hus) h₁) ?_ ?_
      · rw [loweredAll, labelCount_block_cons]
        omega
      · simp only [loweredAll, falseLabels, falseJumps, falseJumpsAll, List.map_append,
          List.append_assoc]
        exact .refl _
  intro base s l n ls h
  rw [lowered]
  exact (all ts (List.Subset.refl ts) h).bind fun _ _ _ h' => together_pure none h'

/-- **The two layouts stay side by side** on what the legacy one lowers.  The induction is on the
tree, and every step that they share is one that only sees the table and the next label. -/
theorem lower_pairs (t : Tree) : t.Pairs := by
  induction t using Tree.ind with
  | constant v =>
    intro base s l n ls h
    have hrun := (Together.of_respects h (respects_tempOf v)).bind
      fun g _ _ h' => together_pure (some g) h'
    exact together_of_perm hrun rfl (by simp [lowered, falseLabels, falseJumps])
  | reference g =>
    intro base s l n ls h
    have hrun := (Together.of_respects h (respects_lookup g.name)).bind
      fun g _ _ h' => together_pure (some g) h'
    exact together_of_perm hrun rfl (by simp [lowered, falseLabels, falseJumps])
  | negation a iha =>
    intro base s l n ls h
    rw [lowered, lower_negation, lower_negation, labelCount_negation, falseLabels, falseJumps]
    exact (iha h).operand fun source s₁ l₁ h₁ => .of_respects h₁ (respects_negated source)
  | binary op a b iha ihb =>
    intro base s l n ls h
    rw [lowered, lower_binary, lower_binary, staticType_lowered, staticType_lowered]
    refine (iha h).operand fun left s₁ l₁ h₁ => (ihb h₁).operand fun right s₂ l₂ h₂ => ?_
    refine together_of_perm (.of_respects h₂ (respects_combined op _ _ left right)) ?_ ?_
    · rw [labelCount_binary]
      omega
    · simp only [falseLabels, falseJumps, List.map_append, List.append_assoc]
      exact .refl _
  | assign g a iha =>
    intro base s l n ls h
    rw [lowered, lower, lower, labelCount_assign, falseLabels, falseJumps]
    exact (iha h).operand fun source s₁ l₁ h₁ => together_none h₁ (respects_copy g source)
  | write a newline iha =>
    intro base s l n ls h
    rw [lowered, lower_write, lower_write, labelCount_write, falseLabels, falseJumps]
    exact (iha h).operand fun source s₁ l₁ h₁ => together_none h₁ (respects_append _)
  | choice c a ihc iha => exact pairs_choice ihc iha
  | choiceElse c a b ihc iha _ => exact pairs_choiceElse ihc iha
  | loop c a ihc iha => exact pairs_loop ihc iha
  | block ts ih => exact pairs_block ih

end Tree
end ProcTree
