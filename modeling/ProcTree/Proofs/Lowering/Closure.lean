/-
# Which compiled programs are closed

Every operand of a lowered program is looked up in the table or made by it, with one exception: the
target of an assignment is taken as it is.  A handle may come from another table, and the checker
asks the target for no more than its kind.

* `Tree.lower_mentions`: a target of a lowered assignment is an operand in the code, whatever is
  lowered after it.
* `Program.Closed.check_ne_notDeclared`, `Program.exists_check_listing_iff`: a reader of a closed
  program never misses a declaration, and a reader of any other program does.
* `Tree.compile_closed_iff`: so a compiled program is closed exactly if the targets of its
  assignments are declared, and there are compilations whose targets are not
  (`Tree.compile_not_closed`).
-/
import ProcTree.Proofs.Listing.Declared
import ProcTree.Proofs.Lowering.Extension
import ProcTree.Proofs.Lowering.Pairing

namespace ProcTree

/-! ## 1. Targets are operands -/

namespace Builder

/-- Code was added at the end, and these variables are operands in the code. -/
structure Mentions (targets : List Handle) (b b' : Builder) : Prop where
  code : b.code <+: b'.code
  operand : ∀ g ∈ targets, ∃ i ∈ b'.code, g ∈ i.operands.handles

namespace Mentions

variable {T T' : List Handle} {b b₁ b₂ : Builder}

theorem of_code (hc : b.code <+: b₁.code) : Mentions [] b b₁ := ⟨hc, fun _ hg => nomatch hg⟩

theorem push (b : Builder) (i : Instruction) : Mentions i.operands.handles b (b.push i) :=
  ⟨⟨[i], rfl⟩, fun _ hg => ⟨i, by simp, hg⟩⟩

theorem step {i : Instruction} : Mentions [] b (b.push i) := .of_code ⟨[i], rfl⟩

theorem label : Mentions [] b b.takeLabel := .of_code List.prefix_rfl

theorem trans (h : Mentions T b b₁) (h' : Mentions T' b₁ b₂) : Mentions (T ++ T') b b₂ := by
  refine ⟨h.code.trans h'.code, ?_⟩
  intro g hg
  rcases List.mem_append.mp hg with hg | hg
  · obtain ⟨i, hi, hgi⟩ := h.operand g hg
    exact ⟨i, h'.code.subset hi, hgi⟩
  · exact h'.operand g hg

theorem mono (h : Mentions T b b₁) (hT : T' ⊆ T) : Mentions T' b b₁ :=
  ⟨h.code, fun g hg => h.operand g (hT hg)⟩

end Mentions
end Builder

namespace Tree
open Lowering Builder

variable {layout : ChoiceLayout}

/-- The instruction of an assignment has the target as its first operand. -/
theorem mentions_copy {target source : Handle} {b b' : Builder}
    (h : copy target source b = .ok () b') : Mentions [target] b b' := by
  have two : ∀ {o : Opcode} (fits), append ⟨o, .two target source, none, fits⟩ b = .ok () b' →
      Mentions [target] b b' := by
    intro o fits h
    obtain rfl := append_eq_ok_iff.mp h
    exact (Mentions.push b _).mono (by simp [Operands.handles])
  obtain ⟨t, k⟩ := target
  obtain ⟨n, k'⟩ := source
  cases k <;> cases k' <;> first | exact two rfl h | cases h

theorem mentions_landing {l : Label} {b b' : Builder} (h : landing layout l b = .ok () b') :
    Mentions [] b b' := by
  rw [landing_ok_iff.mp h]
  split
  · exact .step
  · exact .of_code List.prefix_rfl

theorem mentions_otherBranch {l : Label} {a : Tree} {b b' : Builder}
    (h : otherBranch layout l a b = .ok () b')
    (ha : ∀ {r}, a.lower layout (b.push (.carrier l)) = .ok r b' →
      Mentions (a.lowered layout).targets (b.push (.carrier l)) b') :
    Mentions (if layout = .structured then a.lowered layout else .block []).targets b b' := by
  rw [otherBranch_ok_iff] at h
  split at h
  · next hs =>
    obtain ⟨r, h⟩ := h
    rw [if_pos hs]
    exact (Mentions.step.trans (ha h)).mono (by simp)
  · next hs =>
    obtain rfl := h
    rw [if_neg hs]
    exact .of_code List.prefix_rfl

/-- **Every target of a lowered assignment is an operand** after a success. -/
theorem lower_mentions (t : Tree) : ∀ {b b' : Builder} {r : Option Handle},
    t.lower layout b = .ok r b' → Mentions (t.lowered layout).targets b b' := by
  induction t using Tree.ind with
  | constant v =>
    intro b b' r h
    obtain ⟨-, rfl⟩ := lower_constant_iff.mp h
    exact .of_code List.prefix_rfl
  | reference g =>
    intro b b' r h
    obtain ⟨_, -, -, rfl⟩ := lower_reference_iff.mp h
    exact .of_code List.prefix_rfl
  | negation a iha =>
    intro b b' r h
    obtain ⟨source, b₁, ha, -, rfl⟩ := lower_negation_iff.mp h
    have hlast : Mentions [] b₁ ((b₁.withTemp (.zero .boolean)).push
        ⟨.negate, .two ⟨b₁.freshName, .boolean⟩ source, none, rfl⟩) := .of_code ⟨_, rfl⟩
    rw [lowered, targets_eq]
    simpa [rootTargets, children] using (iha ha).trans hlast
  | binary op a₁ a₂ ih₁ ih₂ =>
    intro b b' r h
    obtain ⟨left, b₁, h₁, right, b₂, h₂, h⟩ := lower_binary_iff.mp h
    have hl := (lower_refers h₁).2.some
    obtain ⟨hstep, hr⟩ := lower_refers h₂
    have hop : Moves (Refers fun _ => False) Holds
        (combined op (op.resultTy a₁.staticType a₂.staticType) left right) b₂ :=
      moves_combined op _ (hstep.registers hl) hr.some
    have hlast := hop.ok h
    rw [lowered, targets_eq]
    simpa [rootTargets, children] using
      ((ih₁ h₁).trans (ih₂ h₂)).trans (.of_code hlast.1.codeGrows)
  | assign g a iha =>
    intro b b' r h
    obtain ⟨source, b₁, ha, hc, -⟩ := lower_assign_iff.mp h
    rw [lowered, targets_eq]
    exact ((iha ha).trans (mentions_copy hc)).mono (by simp [rootTargets, children])
  | write a n iha =>
    intro b b' r h
    obtain ⟨source, b₁, ha, -, rfl⟩ := lower_write_iff.mp h
    rw [lowered, targets_eq]
    simpa [rootTargets, children] using (iha ha).trans .step
  | choice c a ihc iha =>
    intro b b' r h
    obtain ⟨condition, b₁, hc, r₂, b₂, ha, -, hl⟩ := lower_choice_layout_iff.mp h
    have hhead := ((ihc hc).trans .label).trans (.step (i := leaving condition b₁.label))
    rw [lowered, targets_eq]
    simpa [rootTargets, children] using (hhead.trans (iha ha)).trans (mentions_landing hl)
  | choiceElse c a₁ a₂ ihc ih₁ ih₂ =>
    intro b b' r h
    obtain ⟨condition, b₁, hc, r₂, b₂, h₁, b₃, h₂, -, rfl⟩ := lower_choiceElse_layout_iff.mp h
    have hhead := (((ihc hc).trans .label).trans .label).trans
      (.step (i := leaving condition b₁.label))
    have hyes := (hhead.trans (ih₁ h₁)).trans (.step (i := jumping b₁.takeLabel.label))
    rw [lowered, targets_eq]
    simpa [rootTargets, children] using
      (hyes.trans (mentions_otherBranch h₂ ih₂)).trans (.step (i := .carrier _))
  | loop c a ihc iha =>
    intro b b' r h
    obtain ⟨condition, b₁, hc, r₂, b₂, ha, -, rfl⟩ := lower_loop_iff.mp h
    have hhead := ((Mentions.label (b := b)).trans .label).trans (.step (i := .carrier b.label))
    have hcondition := (hhead.trans (ihc hc)).trans
      (.step (i := leaving condition b.takeLabel.label))
    rw [lowered, targets_eq]
    simpa [rootTargets, children] using
      ((hcondition.trans (iha ha)).trans (.step (i := jumping b.label))).trans
        (.step (i := .carrier _))
  | block ts ih =>
    intro b b' r h
    obtain ⟨hall, -⟩ := lower_block_iff.mp h
    have all : ∀ us, us ⊆ ts → ∀ {b : Builder}, lowerAll layout us b = .ok () b' →
        Mentions (us.flatMap fun u => (u.lowered layout).targets) b b' := by
      intro us
      induction us with
      | nil =>
        intro _ b h
        obtain rfl := lowerAll_nil_iff.mp h
        exact .of_code List.prefix_rfl
      | cons u us ihus =>
        intro hus b h
        obtain ⟨r₁, b₁, hu, h⟩ := lowerAll_cons_iff.mp h
        exact (ih u (hus List.mem_cons_self) hu).trans
          (ihus (List.subset_of_cons_subset hus) h)
    rw [lowered, loweredAll_eq, targets_eq]
    simpa [rootTargets, children, List.flatMap_map] using all ts (List.Subset.refl ts) hall

end Tree

/-! ## 2. Reports of undeclared names -/

namespace Listing

/-- An undeclared name is reported only if no declaration is repeated, and it is an operand. -/
theorem check_eq_notDeclared_iff {l : Listing} {name : String} :
    l.check = .error (.notDeclared name) ↔
      firstRepeat? [] l.names = none ∧ l.operandNames.find? (fun n => n ∉ l.names) = some name := by
  unfold check checkPairing
  cases firstRepeat? [] l.names with
  | some n => simp
  | none =>
    cases l.operandNames.find? fun n => n ∉ l.names with
    | some n => simp
    | none =>
      simp only [reduceCtorEq, and_false, iff_false]
      split
      · simp
      · split <;> simp

end Listing

/-- No reading of a closed program's text is refused for a name that is not declared. -/
theorem Program.Closed.check_ne_notDeclared {p : Program} (hp : p.Closed) {l : Listing}
    (hl : Listing.ofText p.text = .ok l) (name : String) : l.check ≠ .error (.notDeclared name) := by
  intro h
  obtain ⟨-, hfind⟩ := Listing.check_eq_notDeclared_iff.mp h
  have hmem := hp.declares hl name (List.mem_of_find?_eq_some hfind)
  have hnot := List.find?_some hfind
  simp [hmem] at hnot

namespace Program

theorem names_listing (p : Program) : p.listing.names = p.declarations.map Variable.name := by
  rw [listing, Listing.names, List.map_map]
  rfl

theorem operandNames_listing (p : Program) :
    p.listing.operandNames = p.code.flatMap fun i => i.operands.handles.map Handle.name := by
  have hnames : (fun i : Instruction => i.listed.names) =
      fun i => i.operands.handles.map Handle.name := funext Instruction.names_listed
  rw [listing, Listing.operandNames, List.flatMap_map, ← hnames]
  rfl

/-- **The listing of a program that is not closed is refused** for a name that is not declared,
if no name is declared twice. -/
theorem exists_check_listing_iff {p : Program}
    (hn : (p.declarations.map Variable.name).Nodup) :
    (∃ name, p.listing.check = .error (.notDeclared name)) ↔ ¬p.Closed := by
  have hrepeat : firstRepeat? [] (p.declarations.map Variable.name) = none :=
    firstRepeat?_nil_eq_none_iff.mpr hn
  simp only [Listing.check_eq_notDeclared_iff, names_listing, operandNames_listing, hrepeat,
    true_and, ← Option.isSome_iff_exists, List.find?_isSome, decide_eq_true_eq]
  constructor
  · rintro ⟨name, hname, hnot⟩ hp
    obtain ⟨i, hi, hname⟩ := List.mem_flatMap.mp hname
    obtain ⟨g, hg, rfl⟩ := List.mem_map.mp hname
    exact hnot (hp i hi g hg)
  · intro hp
    simp only [Closed, not_forall] at hp
    obtain ⟨i, hi, g, hg, hnot⟩ := hp
    exact ⟨g.name, List.mem_flatMap.mpr ⟨i, hi, List.mem_map_of_mem hg⟩, hnot⟩

end Program

/-! ## 3. Closed compilations -/

namespace Tree
open Lowering Builder

variable {t : Tree} {options : Options} {table table' : Table} {p : Program}

/-- What a compilation refers to: declared variables, and targets. -/
theorem compile_refers (h : t.compile options table = .ok p table') :
    (∀ i ∈ p.code, ∀ g ∈ i.operands.handles, g.name ∈ p.declarations.map Variable.name ∨
        g ∈ (t.lowered options.layout).targets) ∧
      ∀ g ∈ (t.lowered options.layout).targets, ∃ i ∈ p.code, g ∈ i.operands.handles := by
  obtain ⟨-, r, b, hl, -, rfl, -⟩ := compile_eq_ok_iff.mp h
  obtain ⟨hextends, -⟩ := lower_refers hl
  refine ⟨fun i hi g hg => ?_, (lower_mentions t hl).operand⟩
  exact (hextends.of_ofTable i hi g hg).imp_left Table.Registers.mem_names

/-- Targets that the table has before are enough. -/
theorem compile_closed (h : t.compile options table = .ok p table')
    (htargets : ∀ g ∈ (t.lowered options.layout).targets, g.name ∈ table.names) : p.Closed := by
  have hgrows : table.entries <+: table'.entries := by
    have hextends := (compile_extends t options table).1
    rwa [leaves, h] at hextends
  have hdeclared : p.declarations = table'.entries := by
    obtain ⟨-, r, b, -, -, rfl, rfl⟩ := compile_eq_ok_iff.mp h
    rfl
  intro i hi g hg
  rcases (compile_refers h).1 i hi g hg with hd | ht
  · exact hd
  · rw [hdeclared]
    exact List.map_subset Variable.name hgrows.subset (htargets g ht)

/-- **A compiled program is closed exactly if the targets of its assignments are declared.**  Each
operand is declared or is such a target.  And if the program is closed, then no reading of its text
is refused for a name that is not declared, whatever the names in the table are. -/
theorem compile_closed_iff (h : t.compile options table = .ok p table') :
    (∀ i ∈ p.code, ∀ g ∈ i.operands.handles, g.name ∈ p.declarations.map Variable.name ∨
        g ∈ (t.lowered options.layout).targets) ∧
      (p.Closed ↔ ∀ g ∈ (t.lowered options.layout).targets,
        g.name ∈ p.declarations.map Variable.name) ∧
      (p.Closed → ∀ l, Listing.ofText p.text = .ok l →
        ∀ name, l.check ≠ .error (.notDeclared name)) := by
  obtain ⟨hrefers, hmentions⟩ := compile_refers h
  refine ⟨hrefers, ⟨?_, ?_⟩, fun hp l hl name => hp.check_ne_notDeclared hl name⟩
  · intro hp g hg
    obtain ⟨i, hi, hgi⟩ := hmentions g hg
    exact hp i hi g hgi
  · intro htargets i hi g hg
    rcases hrefers i hi g hg with hd | ht
    · exact hd
    · exact htargets g ht

/-- The theorem at work on an assignment to a variable.  In a table that has the variable the
program is closed.  In an empty one it is not, and the checker and the labels are content. -/
theorem compile_closed_iff_assign :
    let x : Handle := ⟨"x", .integer⟩
    let t : Tree := .assign x (.constant (.integer 1))
    let own : Table := ⟨[⟨"x", .integer, .integer 0⟩], "_tempVar", 0⟩
    let foreign : Table := ⟨[], "_tempVar", 0⟩
    (∃ p table', t.compile .standard own = .ok p table' ∧ p.Closed ∧
        ∀ l, Listing.ofText p.text = .ok l → ∀ name, l.check ≠ .error (.notDeclared name)) ∧
      ∃ p table', t.compile .standard foreign = .ok p table' ∧ ¬p.Closed := by
  intro x t own foreign
  have htargets : t.targets = [x] := by decide
  obtain ⟨p, table', h, hdecl⟩ : ∃ p table', t.compile .standard own = .ok p table' ∧
      "x" ∈ p.declarations.map Variable.name := ⟨_, _, rfl, by decide +kernel⟩
  obtain ⟨p', table'', h', hnot⟩ : ∃ p table', t.compile .standard foreign = .ok p table' ∧
      "x" ∉ p.declarations.map Variable.name := ⟨_, _, rfl, by decide +kernel⟩
  obtain ⟨-, hiff, hread⟩ := compile_closed_iff h
  obtain ⟨-, hiff', -⟩ := compile_closed_iff h'
  have hlowered : t.lowered Options.standard.layout = t := lowered_structured t
  rw [hlowered, htargets] at hiff hiff'
  have hclosed : p.Closed := hiff.mpr (by simpa [x] using hdecl)
  refine ⟨⟨p, table', h, hclosed, hread hclosed⟩, p', table'', h', fun hp => hnot ?_⟩
  exact hiff'.mp hp x List.mem_cons_self

/-- Not every compiled program is closed: the text of this one is read back and refused. -/
theorem compile_not_closed :
    let t : Tree := .assign ⟨"x", .integer⟩ (.constant (.integer 1))
    let table : Table := ⟨[], "_tempVar", 0⟩
    ∃ p table' l, t.compile .standard table = .ok p table' ∧ ¬p.Closed ∧
      Listing.ofText p.text = .ok l ∧ l.check = .error (.notDeclared "x") := by
  intro t table
  let temp : Variable := ⟨table.tempName 0, .integer, .integer 1⟩
  let p : Program := ⟨[temp], [⟨.copy .integer, .two ⟨"x", .integer⟩ temp.handle, none, rfl⟩]⟩
  have htext : Listing.ofText p.text = .ok p.listing := by
    refine Program.ofText_text (by decide) ?_ (by decide +kernel)
    intro v hv x hx
    obtain rfl : v = temp := by simpa [p] using hv
    cases hx
  exact ⟨p, ⟨[temp], "_tempVar", 1⟩, p.listing, rfl, by decide +kernel, htext,
    Listing.check_eq_notDeclared_iff.mpr (by decide +kernel)⟩

end Tree
end ProcTree
