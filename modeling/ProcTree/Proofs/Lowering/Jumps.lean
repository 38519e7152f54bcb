/-
# Where jumps go

Labels are numbers, and that they pair up says nothing about where they stand: a choice whose two
labels were exchanged would pair up as well.  This file goes by places.  The jumps in structured
code, from first to last, are those of the choices and loops of the tree in a fixed order
(`Tree.jumps`), and each of them goes where its part in the construct takes it.

* `Owns`: the jump at a place plays a part in a tree whose code is around that place.
* `Tree.lower_jumps`: the jumps of a tree, in order, own the places of the code that jump.
* `Tree.only_loops_jump_back`: only the jumps at the ends of loops go back, each of them to the
  start of its loop.
-/
import Mathlib.Data.List.Forall2
import ProcTree.Proofs.Lowering.Extension
import ProcTree.Proofs.Lowering.Faults
import ProcTree.Proofs.Lowering.Pairing

namespace ProcTree

/-! ## 1. Places -/

/-- The instruction at one place jumps to the label that the instruction at the other one
carries. -/
def JumpsTo (code : List Instruction) (p q : Nat) : Prop :=
  ∃ i j l, code[p]? = some i ∧ i.target? = some l ∧ code[q]? = some j ∧ j.label = some l

/-- The places of the instructions that jump, counted from the given number. -/
def jumpPlaces (first : Nat) (code : List Instruction) : List Nat :=
  ((code.zipIdx first).filter fun x => x.1.target?.isSome).map Prod.snd

theorem jumpPlaces_append (first : Nat) (code more : List Instruction) :
    jumpPlaces first (code ++ more) =
      jumpPlaces first code ++ jumpPlaces (first + code.length) more := by
  rw [jumpPlaces, List.zipIdx_append, List.filter_append, List.map_append]
  rfl

/-- Where nothing jumps there is no such place. -/
theorem jumpPlaces_eq_nil {first : Nat} {code : List Instruction}
    (h : code.filterMap Instruction.target? = []) : jumpPlaces first code = [] := by
  rw [jumpPlaces, List.map_eq_nil_iff, List.filter_eq_nil_iff]
  rintro ⟨i, n⟩ hi
  simpa using List.filterMap_eq_nil_iff.mp h i (List.fst_mem_of_mem_zipIdx hi)

theorem mem_jumpPlaces {code : List Instruction} {p : Nat} :
    p ∈ jumpPlaces 0 code ↔ ∃ i l, code[p]? = some i ∧ i.target? = some l := by
  simp only [jumpPlaces, List.mem_map, List.mem_filter, List.mem_zipIdx_iff_getElem?,
    Option.isSome_iff_exists]
  constructor
  · rintro ⟨⟨i, n⟩, ⟨hi, l, hl⟩, rfl⟩
    exact ⟨i, l, hi, hl⟩
  · rintro ⟨i, l, hi, hl⟩
    exact ⟨(i, p), ⟨hi, l, hl⟩, rfl⟩

/-- The places are listed from first to last. -/
theorem jumpPlaces_sorted (code : List Instruction) : (jumpPlaces 0 code).Pairwise (· < ·) := by
  have hall : ((code.zipIdx 0).map Prod.snd).Pairwise (· < ·) := by
    rw [List.zipIdx_map_snd]
    exact List.pairwise_lt_range'
  exact hall.sublist (List.filter_sublist.map Prod.snd)

/-- Distinct labels stand in different places. -/
theorem place_of_label {code : List Instruction} (hlabels : (code.filterMap Instruction.label).Nodup)
    {q q' : Nat} {j j' : Instruction} {l : Label} (hq : code[q]? = some j)
    (hq' : code[q']? = some j') (hj : j.label = some l) (hj' : j'.label = some l) : q = q' := by
  have hpairs := List.pairwise_iff_getElem.mp (List.pairwise_filterMap.mp hlabels)
  obtain ⟨hlt, rfl⟩ := List.getElem?_eq_some_iff.mp hq
  obtain ⟨hlt', rfl⟩ := List.getElem?_eq_some_iff.mp hq'
  rcases Nat.lt_trichotomy q q' with h | h | h
  · exact absurd rfl (hpairs q q' hlt hlt' h l hj l hj')
  · exact h
  · exact absurd rfl (hpairs q' q hlt' hlt h l hj' l hj)

/-- With distinct labels a jump goes to one place only. -/
theorem JumpsTo.unique {code : List Instruction} {p q q' : Nat}
    (hlabels : (code.filterMap Instruction.label).Nodup) (h : JumpsTo code p q)
    (h' : JumpsTo code p q') : q = q' := by
  obtain ⟨i, j, l, hp, hl, hq, hj⟩ := h
  obtain ⟨i', j', l', hp', hl', hq', hj'⟩ := h'
  obtain rfl : i = i' := Option.some.inj (hp.symm.trans hp')
  obtain rfl : l = l' := Option.some.inj (hl.symm.trans hl')
  exact place_of_label hlabels hq hq' hj hj'

/-- The instruction jumps to this place and to no other. -/
def JumpsOnlyTo (code : List Instruction) (p q : Nat) : Prop := ∀ q', JumpsTo code p q' ↔ q' = q

theorem JumpsTo.only {code : List Instruction} {p q : Nat}
    (hlabels : (code.filterMap Instruction.label).Nodup) (h : JumpsTo code p q) :
    JumpsOnlyTo code p q :=
  fun _ => ⟨fun h' => h'.unique hlabels h, fun e => e ▸ h⟩

/-! ## 2. The parts that jumps play -/

/-- What a jump is for. -/
inductive JumpRole where
  /-- Leaves a choice or a loop whose condition is false. -/
  | leave
  /-- Passes over the other branch of a choice. -/
  | skip
  /-- Goes back to the start of a loop. -/
  | again
deriving DecidableEq

/-- The instruction at the place has this opcode and jumps to a later place, and both places are
among these. -/
def JumpsForward (first last : Nat) (code : List Instruction) (o : Opcode) (p : Nat) : Prop :=
  code[p]?.map Instruction.opcode = some o ∧
    ∃ q, JumpsTo code p q ∧ first ≤ p ∧ p < q ∧ q < last

/-- The instruction at the place is the last but one and jumps back to the first, which does
nothing. -/
def JumpsBack (first last : Nat) (code : List Instruction) (p : Nat) : Prop :=
  code[p]?.map Instruction.opcode = some .goto ∧ JumpsTo code p first ∧
    (∃ l, code[first]? = some (.carrier l)) ∧ first < p ∧ p + 2 = last

/-- The instruction at the place jumps as its part says, in a construct whose code is between the
given places. -/
def JumpRole.Played (first last : Nat) (code : List Instruction) (p : Nat) : JumpRole → Prop
  | leave => JumpsForward first last code .gotoUnless p
  | skip => JumpsForward first last code .goto p
  | again => JumpsBack first last code p

/-- The jump at this place plays this part in this tree: the tree was lowered, its code is there,
and the jump is in it. -/
def Owns (code : List Instruction) (jump : Tree × JumpRole) (p : Nat) : Prop :=
  ∃ b b', jump.1.lower .structured b = .ok none b' ∧ b'.code <+: code ∧
    jump.2.Played b.code.length b'.code.length code p

namespace Owns

variable {code : List Instruction} {u : Tree} {role : JumpRole} {p q : Nat}

/-- **The direction of a jump** is that of its part. -/
theorem back_iff (hlabels : (code.filterMap Instruction.label).Nodup) (h : Owns code (u, role) p)
    (hq : JumpsTo code p q) : (role = .again ↔ q < p) ∧ (role ≠ .again ↔ p < q) := by
  obtain ⟨b, b', -, -, hplayed⟩ := h
  cases role with
  | leave | skip =>
    obtain ⟨-, q', hq', -, hlt, -⟩ := hplayed
    obtain rfl := hq.unique hlabels hq'
    refine ⟨⟨fun e => absurd e (by simp), fun hlt' => ?_⟩, fun _ => hlt, fun _ => by simp⟩
    omega
  | again =>
    obtain ⟨-, hq', -, hlt, -⟩ := hplayed
    obtain rfl := hq.unique hlabels hq'
    refine ⟨⟨fun _ => hlt, fun _ => rfl⟩, fun hne => absurd rfl hne, fun hlt' => ?_⟩
    omega

/-- A conditional jump does not go back. -/
theorem ne_again {i : Instruction} (h : Owns code (u, role) p) (hi : code[p]? = some i)
    (ho : i.opcode = .gotoUnless) : role ≠ .again := by
  rintro rfl
  obtain ⟨b, b', -, -, hgoto, -⟩ := h
  rw [hi, Option.map_some, ho] at hgoto
  exact absurd hgoto (by simp)

/-- A jump goes somewhere. -/
theorem jumps (h : Owns code (u, role) p) : ∃ q, JumpsTo code p q := by
  obtain ⟨b, b', -, -, hplayed⟩ := h
  cases role with
  | leave | skip =>
    obtain ⟨-, q, hq, -⟩ := hplayed
    exact ⟨q, hq⟩
  | again => exact ⟨_, hplayed.2.1⟩

end Owns

namespace Tree

/-- The tree is a loop. -/
def isLoop : Tree → Bool
  | .loop .. => true
  | _ => false

mutual

/-- The jumps in the code of a tree, from first to last: the constructs that they are for, and the
parts that they play. -/
def jumps : Tree → List (Tree × JumpRole)
  | .constant _ | .reference _ => []
  | .negation a | .assign _ a | .write a _ => a.jumps
  | .binary _ a b => a.jumps ++ b.jumps
  | .choice c a => c.jumps ++ (.choice c a, .leave) :: a.jumps
  | .choiceElse c a b =>
    c.jumps ++ (.choiceElse c a b, .leave) :: (a.jumps ++ (.choiceElse c a b, .skip) :: b.jumps)
  | .loop c a => c.jumps ++ (.loop c a, .leave) :: (a.jumps ++ [(.loop c a, .again)])
  | .block ts => jumpsAll ts

/-- The jumps of each of the trees, in order. -/
def jumpsAll : List Tree → List (Tree × JumpRole)
  | [] => []
  | t :: ts => t.jumps ++ jumpsAll ts

end

theorem jumpsAll_eq (ts : List Tree) : jumpsAll ts = ts.flatMap jumps := by
  induction ts with
  | nil => rfl
  | cons t ts ih => rw [jumpsAll, ih, List.flatMap_cons]

/-- **The jumps back are those of the loops**, one for each, in the order in which they end. -/
theorem jumps_again (t : Tree) : t.jumps.filter (fun j => j.2 = .again) =
    (t.postorder.filter isLoop).map fun u => (u, .again) := by
  induction t using Tree.ind with
  | constant v => rfl
  | reference g => rfl
  | negation a iha | assign g a iha | write a n iha => simp [jumps, postorder, isLoop, iha]
  | binary op a b iha ihb => simp [jumps, postorder, isLoop, iha, ihb]
  | choice c a ihc iha => simp [jumps, postorder, isLoop, ihc, iha]
  | choiceElse c a b ihc iha ihb => simp [jumps, postorder, isLoop, ihc, iha, ihb]
  | loop c a ihc iha => simp [jumps, postorder, isLoop, ihc, iha, List.filter_cons]
  | block ts ih =>
    have hall : ∀ us, us ⊆ ts → (us.flatMap jumps).filter (fun j => j.2 = .again) =
        ((us.flatMap postorder).filter isLoop).map fun u => (u, .again) := by
      intro us
      induction us with
      | nil => exact fun _ => rfl
      | cons u us ihus =>
        intro hus
        simp only [List.flatMap_cons, List.filter_append, List.map_append,
          ih u (hus List.mem_cons_self), ihus (List.subset_of_cons_subset hus)]
    rw [jumps, jumpsAll_eq, postorder, postorderAll_eq, hall ts (List.Subset.refl ts)]
    simp [isLoop]

/-! ## 3. Lowering -/

open Lowering Builder

variable {code : List Instruction} {b b₁ b₂ b₃ b' : Builder} {js js' : List (Tree × JumpRole)}

/-- The new code has the places of these jumps, in the code as a whole. -/
def Emits (code : List Instruction) (js : List (Tree × JumpRole)) (b b' : Builder) : Prop :=
  ∃ segment, b'.code = b.code ++ segment ∧
    List.Forall₂ (Owns code) js (jumpPlaces b.code.length segment)

namespace Emits

theorem trans (h : Emits code js b b₁) (h' : Emits code js' b₁ b₂) :
    Emits code (js ++ js') b b₂ := by
  obtain ⟨segment, hcode, hall⟩ := h
  obtain ⟨segment', hcode', hall'⟩ := h'
  rw [hcode, List.length_append] at hall'
  refine ⟨segment ++ segment', by rw [hcode', hcode, List.append_assoc], ?_⟩
  rw [jumpPlaces_append]
  exact List.rel_append hall hall'

theorem grows (h : Emits code js b b') : b.code <+: b'.code := by
  obtain ⟨segment, hcode, -⟩ := h
  exact ⟨segment, hcode.symm⟩

/-- Code without labels has no jumps. -/
theorem of_closes (h : Closes 0 b b') : Emits code [] b b' := by
  obtain ⟨A, T, hadd, -, hT⟩ := h
  obtain ⟨segment, hcode, -, htargets⟩ := hadd.code
  refine ⟨segment, hcode, ?_⟩
  rw [jumpPlaces_eq_nil (htargets.trans hT.eq_nil)]
  exact .nil

theorem refl (b : Builder) : Emits code [] b b := of_closes (.refl b)

theorem label (b : Builder) : Emits code [] b b.takeLabel := ⟨[], by simp, .nil⟩

/-- An instruction without a target, whether or not it carries a label. -/
theorem quiet (b : Builder) {i : Instruction} (hi : i.target? = none) :
    Emits code [] b (b.push i) :=
  ⟨[i], rfl, by rw [jumpPlaces_eq_nil (by simp [hi])]; exact .nil⟩

/-- A jump. -/
theorem jump {i : Instruction} {l : Label} {j : Tree × JumpRole} (hi : i.target? = some l)
    (hj : Owns code j b.code.length) : Emits code [j] b (b.push i) := by
  refine ⟨[i], rfl, ?_⟩
  have hplaces : jumpPlaces b.code.length [i] = [b.code.length] := by simp [jumpPlaces, hi]
  rw [hplaces]
  exact .cons hj .nil

end Emits

/-- What is added last is at the place after what was there before. -/
theorem getElem?_of_push {i : Instruction} (h : (b.push i).code <+: code) :
    code[b.code.length]? = some i := by
  obtain ⟨rest, rfl⟩ := h
  simp

theorem jumpsTo_of_push {i j : Instruction} {l : Label} (hi : (b.push i).code <+: code)
    (hj : (b'.push j).code <+: code) (ht : i.target? = some l) (hl : j.label = some l) :
    JumpsTo code b.code.length b'.code.length :=
  ⟨i, j, l, getElem?_of_push hi, ht, getElem?_of_push hj, hl⟩

/-- A conditional jump has a target. -/
theorem target?_of_gotoUnless {i : Instruction} (h : i.opcode = .gotoUnless) :
    ∃ l, i.target? = some l := by
  obtain ⟨o, os, l, fits⟩ := i
  obtain rfl : o = _ := h
  cases os with
  | oneTarget a l => exact ⟨l, rfl⟩
  | _ => exact absurd fits (by simp [Operands.shape, Opcode.shape])

theorem codeGrows_of_lower {layout : ChoiceLayout} {t : Tree} {r : Option Handle}
    (h : t.lower layout b = .ok r b') : b.code <+: b'.code := (lower_refers h).1.codeGrows

/-- A jump, and later the label that it goes to. -/
theorem jumpsForward_of_push {i : Instruction} {l : Label} (hi : i.target? = some l)
    (hb' : b'.code <+: code) (hfirst : b.code <+: b₁.code)
    (hmid : (b₁.push i).code <+: b₂.code) (hlast : (b₂.push (.carrier l)).code <+: b'.code) :
    JumpsForward b.code.length b'.code.length code i.opcode b₁.code.length := by
  have htarget : (b₂.push (.carrier l)).code <+: code := hlast.trans hb'
  have hjump : (b₁.push i).code <+: code :=
    hmid.trans ((List.prefix_append _ _).trans htarget)
  have hle := hfirst.length_le
  have hlt := hmid.length_le
  have hlt' := hlast.length_le
  rw [length_push] at hlt hlt'
  refine ⟨?_, b₂.code.length, jumpsTo_of_push hjump htarget hi rfl, hle, hlt, hlt'⟩
  rw [getElem?_of_push hjump, Option.map_some]

/-- A label, and as the last but one instruction the jump back to it. -/
theorem jumpsBack_of_push {l : Label} (hb' : b'.code <+: code)
    (hmid : (b.push (.carrier l)).code <+: b₁.code)
    (hjump : (b₁.push (jumping l)).code <+: b'.code)
    (hlast : b'.code.length = b₁.code.length + 2) :
    JumpsBack b.code.length b'.code.length code b₁.code.length := by
  have hjump : (b₁.push (jumping l)).code <+: code := hjump.trans hb'
  have hstart : (b.push (.carrier l)).code <+: code :=
    hmid.trans ((List.prefix_append _ _).trans hjump)
  have hlt := hmid.length_le
  rw [length_push] at hlt
  refine ⟨?_, jumpsTo_of_push hjump hstart rfl rfl, ⟨l, getElem?_of_push hstart⟩, hlt, hlast.symm⟩
  rw [getElem?_of_push hjump]
  rfl

variable {c a a₁ a₂ : Tree} {r : Option Handle}

/-- Whatever is lowered of the tree within the code has its jumps there. -/
def EmitsJumps (code : List Instruction) (t : Tree) : Prop :=
  ∀ {b b' : Builder} {r : Option Handle}, t.lower .structured b = .ok r b' → b'.code <+: code →
    Emits code t.jumps b b'

theorem emits_choice (hc : EmitsJumps code c) (ha : EmitsJumps code a) :
    EmitsJumps code (.choice c a) := by
  intro b b' r h hb'
  obtain ⟨condition, b₁, hc₁, r₂, b₂, ha₂, rfl, rfl⟩ := lower_choice_iff.mp h
  have hmid : (b₁.takeLabel.push (leaving condition b₁.label)).code <+: b₂.code :=
    codeGrows_of_lower ha₂
  have hb₂ : b₂.code <+: code := (List.prefix_append _ _).trans hb'
  have hb₁ : b₁.code <+: code := ((List.prefix_append _ _).trans hmid).trans hb₂
  have hleave : Owns code (.choice c a, .leave) b₁.takeLabel.code.length :=
    ⟨b, _, h, hb', jumpsForward_of_push rfl hb' (codeGrows_of_lower hc₁) hmid List.prefix_rfl⟩
  have hall := ((hc hc₁ hb₁).trans (.label b₁)).trans
    (.jump (i := leaving condition b₁.label) rfl hleave)
  simpa [jumps] using (hall.trans (ha ha₂ hb₂)).trans (.quiet b₂ (i := .carrier b₁.label) rfl)

theorem emits_choiceElse (hc : EmitsJumps code c) (h₁ : EmitsJumps code a₁) (h₂ : EmitsJumps code a₂) :
    EmitsJumps code (.choiceElse c a₁ a₂) := by
  intro b b' r h hb'
  obtain ⟨condition, b₁, hc₁, r₂, b₂, ha₁, r₃, b₃, ha₂, rfl, rfl⟩ := lower_choiceElse_iff.mp h
  have hfirst : b.code <+: b₁.code := codeGrows_of_lower hc₁
  have hmid : (b₁.takeLabel.takeLabel.push (leaving condition b₁.label)).code <+: b₂.code :=
    codeGrows_of_lower ha₁
  have hmid' : ((b₂.push (jumping b₁.takeLabel.label)).push (.carrier b₁.label)).code <+:
      b₃.code := codeGrows_of_lower ha₂
  have hjump : (b₂.push (jumping b₁.takeLabel.label)).code <+: b₃.code :=
    (List.prefix_append _ _).trans hmid'
  have hb₃ : b₃.code <+: code := (List.prefix_append _ _).trans hb'
  have hb₂ : b₂.code <+: code := ((List.prefix_append _ _).trans hjump).trans hb₃
  have hb₁ : b₁.code <+: b₂.code := (List.prefix_append _ _).trans hmid
  have hleave : Owns code (.choiceElse c a₁ a₂, .leave) b₁.takeLabel.takeLabel.code.length :=
    ⟨b, _, h, hb', jumpsForward_of_push rfl hb' hfirst (hmid.trans (List.prefix_append _ _))
      (hmid'.trans (List.prefix_append _ _))⟩
  have hskip : Owns code (.choiceElse c a₁ a₂, .skip) b₂.code.length :=
    ⟨b, _, h, hb', jumpsForward_of_push (i := jumping b₁.takeLabel.label) rfl hb'
      (hfirst.trans hb₁) hjump List.prefix_rfl⟩
  have hyes := ((((hc hc₁ (hb₁.trans hb₂)).trans (.label b₁)).trans (.label b₁.takeLabel)).trans
    (.jump (i := leaving condition b₁.label) rfl hleave)).trans (h₁ ha₁ hb₂)
  have hno := ((Emits.jump (i := jumping b₁.takeLabel.label) rfl hskip).trans
    (.quiet _ (i := .carrier b₁.label) rfl)).trans (h₂ ha₂ hb₃)
  simpa [jumps] using (hyes.trans hno).trans (.quiet b₃ (i := .carrier b₁.takeLabel.label) rfl)

theorem emits_loop (hc : EmitsJumps code c) (ha : EmitsJumps code a) : EmitsJumps code (.loop c a) := by
  intro b b' r h hb'
  obtain ⟨condition, b₁, hc₁, r₂, b₂, ha₂, rfl, rfl⟩ := lower_loop_iff.mp h
  have hstart : (b.takeLabel.takeLabel.push (.carrier b.label)).code <+: b₁.code :=
    codeGrows_of_lower hc₁
  have hmid : (b₁.push (leaving condition b.takeLabel.label)).code <+: b₂.code :=
    codeGrows_of_lower ha₂
  have hb₂ : b₂.code <+: code :=
    ((List.prefix_append _ _).trans (List.prefix_append _ _)).trans hb'
  have hb₁ : b₁.code <+: b₂.code := (List.prefix_append _ _).trans hmid
  have hleave : Owns code (.loop c a, .leave) b₁.code.length :=
    ⟨b, _, h, hb', jumpsForward_of_push rfl hb' ((List.prefix_append _ _).trans hstart)
      (hmid.trans (List.prefix_append _ _)) List.prefix_rfl⟩
  have hagain : Owns code (.loop c a, .again) b₂.code.length :=
    ⟨b, _, h, hb', jumpsBack_of_push (b := b.takeLabel.takeLabel) hb' (hstart.trans hb₁)
      (List.prefix_append _ _) (by simp)⟩
  have htest := (((Emits.label b).trans (.label b.takeLabel)).trans
    (.quiet _ (i := .carrier b.label) rfl)).trans (hc hc₁ (hb₁.trans hb₂))
  have hbody := (htest.trans (.jump (i := leaving condition b.takeLabel.label) rfl hleave)).trans
    (ha ha₂ hb₂)
  have hall := hbody.trans (.jump (i := jumping b.label) rfl hagain)
  simpa [jumps] using hall.trans (.quiet _ (i := .carrier b.takeLabel.label) rfl)

/-- **The jumps of a tree are in its code**, in order, and each plays its part. -/
theorem lower_jumps (code : List Instruction) (t : Tree) : EmitsJumps code t := by
  induction t using Tree.ind with
  | constant v =>
    intro b b' r h _
    obtain ⟨-, rfl⟩ := lower_constant_iff.mp h
    exact .of_closes (.withTemp b v)
  | reference g =>
    intro b b' r h _
    obtain ⟨_, -, -, rfl⟩ := lower_reference_iff.mp h
    exact .refl b'
  | negation a iha =>
    intro b b' r h hb
    obtain ⟨source, b₁, ha, -, rfl⟩ := lower_negation_iff.mp h
    have hb₁ : b₁.code <+: code := (List.prefix_append _ _).trans hb
    simpa [jumps] using ((iha ha hb₁).trans (.of_closes (.withTemp b₁ _))).trans (.quiet _ rfl)
  | binary op a₁ a₂ ih₁ ih₂ =>
    intro b b' r h hb
    obtain ⟨left, b₁, h₁, right, b₂, h₂, h⟩ := lower_binary_iff.mp h
    have hlast : Emits code [] b₂ b' := .of_closes ((keeps_combined op _ left right).of_ok h)
    have hb₂ : b₂.code <+: code := hlast.grows.trans hb
    have hb₁ : b₁.code <+: code := (codeGrows_of_lower h₂).trans hb₂
    simpa [jumps] using ((ih₁ h₁ hb₁).trans (ih₂ h₂ hb₂)).trans hlast
  | assign g a iha =>
    intro b b' r h hb
    obtain ⟨source, b₁, ha, hc, -⟩ := lower_assign_iff.mp h
    have hlast : Emits code [] b₁ b' := .of_closes ((keeps_copy g source).of_ok hc)
    simpa [jumps] using (iha ha (hlast.grows.trans hb)).trans hlast
  | write a n iha =>
    intro b b' r h hb
    obtain ⟨source, b₁, ha, -, rfl⟩ := lower_write_iff.mp h
    have hb₁ : b₁.code <+: code := (List.prefix_append _ _).trans hb
    have htarget : (writing n source).target? = none := by cases n <;> rfl
    simpa [jumps] using (iha ha hb₁).trans (.quiet b₁ htarget)
  | choice c a ihc iha => exact emits_choice ihc iha
  | choiceElse c a₁ a₂ ihc ih₁ ih₂ => exact emits_choiceElse ihc ih₁ ih₂
  | loop c a ihc iha => exact emits_loop ihc iha
  | block ts ih =>
    intro b b' r h hb
    obtain ⟨hall, -⟩ := lower_block_iff.mp h
    have all : ∀ us, us ⊆ ts → ∀ {b : Builder}, lowerAll .structured us b = .ok () b' →
        Emits code (us.flatMap jumps) b b' := by
      intro us
      induction us with
      | nil =>
        intro _ b h
        obtain rfl := lowerAll_nil_iff.mp h
        exact .refl b'
      | cons u us ihus =>
        intro hus b h
        obtain ⟨r₁, b₁, hu, h⟩ := lowerAll_cons_iff.mp h
        have hrest := ihus (List.subset_of_cons_subset hus) h
        exact (ih u (hus List.mem_cons_self) hu (hrest.grows.trans hb)).trans hrest
    rw [jumps, jumpsAll_eq]
    exact all ts (List.Subset.refl ts) hall

/-! ## 4. Whole code -/

/-- In two lists that go together every element of the second one belongs to one of the first. -/
theorem exists_of_forall₂ {α β : Type} {R : α → β → Prop} {as : List α} {bs : List β}
    (h : List.Forall₂ R as bs) : ∀ y ∈ bs, ∃ x ∈ as, R x y := by
  induction h with
  | nil => simp
  | cons hxy _ ih =>
    intro y hy
    rcases List.mem_cons.mp hy with rfl | hy
    · exact ⟨_, List.mem_cons_self, hxy⟩
    · obtain ⟨x, hx, hr⟩ := ih y hy
      exact ⟨x, List.mem_cons_of_mem _ hx, hr⟩

variable {table : Table} {t : Tree}

/-- All jumps of the code that was added to none. -/
theorem owns_jumpPlaces (h : t.lower .structured (.ofTable table) = .ok r b) :
    List.Forall₂ (Owns b.code) t.jumps (jumpPlaces 0 b.code) := by
  obtain ⟨segment, hcode, hall⟩ := lower_jumps b.code t h List.prefix_rfl
  have hsame : b.code = segment := hcode
  rwa [← hsame] at hall

/-- Labels are distinct if there are numbers enough for them. -/
theorem labels_nodup (h : t.lower .structured (.ofTable table) = .ok r b)
    (hfit : b.nextLabel ≤ UInt64.size) : (b.code.filterMap Instruction.label).Nodup := by
  obtain ⟨A, T, hadd, -, -⟩ := lower_closes t h
  have hcount : t.labelCount ≤ UInt64.size := by
    have hn : b.nextLabel = 0 + t.labelCount := hadd.nextLabel
    omega
  exact (checkPairing_eq_ok_iff.mp ((lower_closes t h).check hcount)).1

/-- With distinct labels, the places that jump back are those of the loops. -/
theorem back_places (hlabels : (b.code.filterMap Instruction.label).Nodup)
    (h : t.lower .structured (.ofTable table) = .ok r b) :
    ∃ places : List Nat, places.Pairwise (· < ·) ∧
      List.Forall₂ (fun u p => Owns b.code (u, .again) p) (t.postorder.filter isLoop) places ∧
      ∀ p, p ∈ places ↔ ∃ q, JumpsTo b.code p q ∧ q < p := by
  classical
  have hall := owns_jumpPlaces h
  let back : Nat → Bool := fun p => ∃ q, JumpsTo b.code p q ∧ q < p
  have hback : ∀ j p, Owns b.code j p → (j.2 = .again ↔ ∃ q, JumpsTo b.code p q ∧ q < p) := by
    rintro ⟨u, role⟩ p hj
    obtain ⟨q, hq⟩ := hj.jumps
    refine (hj.back_iff hlabels hq).1.trans ⟨fun hlt => ⟨q, hq, hlt⟩, ?_⟩
    rintro ⟨q', hq', hlt⟩
    exact hq.unique hlabels hq' ▸ hlt
  refine ⟨(jumpPlaces 0 b.code).filter back, (jumpPlaces_sorted _).filter _, ?_, fun p => ?_⟩
  · have hfilter := List.rel_filter (p := fun j => decide (j.2 = .again)) (q := back)
      (fun j p hj => by simpa [back] using hback j p hj) hall
    rwa [jumps_again, List.forall₂_map_left_iff] at hfilter
  · simp only [List.mem_filter, back, decide_eq_true_eq, and_iff_right_iff_imp]
    rintro ⟨q, ⟨i, j, l, hp, hl, -⟩, -⟩
    exact mem_jumpPlaces.mpr ⟨i, l, hp, hl⟩

/-- **Only loops jump back.**  In the structured code of a tree, the instructions that jump are
those of the choices and loops of the tree, in order, and each plays its part.  If the labels have
sixty-four bits, then each jump goes to one place: the conditional ones and those over another
branch go to a later one, and those that go to an earlier one are one jump for each loop, to the
instruction without effect at the start of its code.  So without loops all jumps go to later
places. -/
theorem only_loops_jump_back (h : t.lower .structured (.ofTable table) = .ok r b) :
    List.Forall₂ (Owns b.code) t.jumps (jumpPlaces 0 b.code) ∧
    (b.nextLabel ≤ UInt64.size →
      (∀ p i, b.code[p]? = some i → i.opcode = .gotoUnless →
        ∃ q, JumpsOnlyTo b.code p q ∧ p < q) ∧
      (∀ u p, Owns b.code (u, .skip) p → ∃ q, JumpsOnlyTo b.code p q ∧ p < q) ∧
      (∃ places : List Nat, places.Pairwise (· < ·) ∧
        List.Forall₂ (fun u p => Owns b.code (u, .again) p) (t.postorder.filter isLoop) places ∧
        ∀ p, p ∈ places ↔ ∃ q, JumpsTo b.code p q ∧ q < p) ∧
      ((∀ u ∈ t.subtrees, u.isLoop = false) → ∀ p q, JumpsTo b.code p q → p < q)) := by
  have hall := owns_jumpPlaces h
  refine ⟨hall, fun hfit => ?_⟩
  have hlabels := labels_nodup h hfit
  have owner : ∀ {p i l}, b.code[p]? = some i → i.target? = some l →
      ∃ j ∈ t.jumps, Owns b.code j p :=
    fun hp hl => exists_of_forall₂ hall _ (mem_jumpPlaces.mpr ⟨_, _, hp, hl⟩)
  refine ⟨fun p i hp ho => ?_, fun u p hskip => ?_, back_places hlabels h, fun hnone p q hq => ?_⟩
  · obtain ⟨l, hl⟩ := target?_of_gotoUnless ho
    obtain ⟨⟨u, role⟩, -, hown⟩ := owner hp hl
    obtain ⟨q, hq⟩ := hown.jumps
    exact ⟨q, hq.only hlabels, (hown.back_iff hlabels hq).2.mp (hown.ne_again hp ho)⟩
  · obtain ⟨q, hq⟩ := hskip.jumps
    exact ⟨q, hq.only hlabels, (hskip.back_iff hlabels hq).2.mp (by simp)⟩
  · have ⟨i, _, l, hp, hl, _⟩ := hq
    obtain ⟨⟨u, role⟩, hu, hown⟩ := owner hp hl
    refine (hown.back_iff hlabels hq).2.mp ?_
    rintro rfl
    have hagain : (u, JumpRole.again) ∈ t.jumps.filter (fun j => j.2 = .again) :=
      List.mem_filter.mpr ⟨hu, by simp⟩
    rw [jumps_again] at hagain
    obtain ⟨u', hu', e⟩ := List.mem_map.mp hagain
    obtain ⟨hmem, hloop⟩ := List.mem_filter.mp hu'
    exact absurd hloop (by simp [hnone u' (mem_postorder_iff.mp hmem)])

/-- The theorem at work on a choice in a loop, behind a choice with two branches.  One of its five
jumps goes back.  The first one does not, and goes to one place only.  The first choice by itself
has no jump that goes back. -/
theorem only_loops_jump_back_nested :
    let x : Handle := ⟨"x", .integer⟩
    let small : Tree := .binary (.comparison .less) (.reference x) (.constant (.integer 9))
    let print : Tree := .write (.reference x) true
    let plain : Tree := .choiceElse small print print
    let t : Tree := .block [plain, .loop small (.choice small print)]
    let start : Builder := .ofTable ⟨[⟨"x", .integer, .integer 5⟩], "_tempVar", 0⟩
    let b := leaves (t.lower .structured) start
    (List.Forall₂ (Owns b.code) t.jumps [1, 3, 9, 11, 14] ∧
      (∃ places : List Nat, places.length = 1 ∧
        ∀ p, p ∈ places ↔ ∃ q, JumpsTo b.code p q ∧ q < p) ∧
      ∃ q, JumpsOnlyTo b.code 1 q ∧ 1 < q) ∧
    ∀ p q, JumpsTo (leaves (plain.lower .structured) start).code p q → p < q := by
  intro x small print plain t start b
  have hrun : ((t.lower .structured).run' start).isSome = true := by decide +kernel
  have hrun' : ((plain.lower .structured).run' start).isSome = true := by decide +kernel
  obtain ⟨r, h⟩ := eq_ok_of_isSome hrun
  obtain ⟨r', h'⟩ := eq_ok_of_isSome hrun'
  have hnext : b.nextLabel = 5 := by decide +kernel
  have hnext' : (leaves (plain.lower .structured) start).nextLabel = 2 := by decide +kernel
  have hplaces : jumpPlaces 0 b.code = [1, 3, 9, 11, 14] := by decide +kernel
  have hfirst : b.code[1]?.map Instruction.opcode = some .gotoUnless := by decide +kernel
  have hloops : (t.postorder.filter isLoop).length = 1 := by decide +kernel
  have hnone : plain.subtrees.all (fun u => !u.isLoop) = true := by decide +kernel
  obtain ⟨hall, hrest⟩ := only_loops_jump_back h
  obtain ⟨hleave, -, ⟨places, -, hback, hmem⟩, -⟩ :=
    hrest (by rw [show _ = 5 from hnext]; decide)
  obtain ⟨-, -, -, hforward⟩ := (only_loops_jump_back h').2 (by rw [hnext']; decide)
  obtain ⟨i, hi, ho⟩ := Option.map_eq_some_iff.mp hfirst
  refine ⟨⟨hplaces ▸ hall, ⟨places, hback.length_eq ▸ hloops, hmem⟩, hleave 1 i hi ho⟩, ?_⟩
  exact hforward (by simpa using hnone)

end Tree
end ProcTree
