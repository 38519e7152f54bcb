/-
# The grammar of program text

What may stand on a line, said without the functions that read lines, and which lines make a
listing.

* Lines: `SpellsDeclaration` and `SpellsInstruction`, with the labels and operands in them.
* Texts: the begin marker, declarations, the end marker, and instructions whose operands suit their
  mnemonics (`Listing.SpellsListing`).

`ListedVariable.ofLine?_eq_some_iff` and `cutInstruction?_eq_some_iff` say that the readers of lines
decide their rules, and `Listing.ofText_eq_ok_iff` says it of the reader of texts.
-/
import Mathlib.Data.List.Forall2
import ProcTree.Proofs.Listing.Values

namespace ProcTree

/-! ## 1. Declaration lines -/

/-- A declaration line: its start, a name that can be written, the name of a kind, and a value of
this kind, with commas between them. -/
inductive SpellsDeclaration : List Char → ListedVariable → Prop
  | mk {name : String} {cs : List Char} {value : Value} (hname : WritableName name)
    (hvalue : SpellsValue cs value) :
    SpellsDeclaration ("    %var\t@".toList ++
      (name.toList ++ ',' :: (value.kind.name.toList ++ ',' :: cs))) ⟨name, value⟩

/-- **The declarations that are read** are those that are spelled. -/
theorem ListedVariable.ofLine?_eq_some_iff {line : List Char} {v : ListedVariable} :
    ofLine? line = some v ↔ SpellsDeclaration line v := by
  constructor
  · intro h
    simp only [ofLine?, bind, Option.bind_eq_some_iff] at h
    obtain ⟨cs, hcs, ⟨name, cs'⟩, hname, ⟨kind, value⟩, hkind, n, hn, k, hk, x, hx, hv⟩ := h
    cases hv
    obtain ⟨rfl, hwritable⟩ := nameOfChars?_eq_some_iff.mp hn
    obtain ⟨hvalue, rfl⟩ := Value.ofChars?_eq_some_iff.mp hx
    have hk' : x.kind.name = String.ofList kind := by simpa using List.find?_some hk
    obtain rfl : kind = x.kind.name.toList := ofList_eq_iff.mp hk'.symm
    have hcs' : cs' = x.kind.name.toList ++ ',' :: value := cutComma?_eq_some hkind
    rw [dropStart?_eq_some hcs, cutComma?_eq_some hname, hcs']
    exact .mk hwritable hvalue
  · rintro @⟨name, cs, value, hname, hvalue⟩
    exact ofLine?_append hname (Value.ofChars?_eq_some_iff.mpr ⟨hvalue, rfl⟩)

/-! ## 2. Instruction lines -/

/-- A label: the word, digits and the percent sign.  The number has sixty-four bits. -/
inductive SpellsLabel : List Char → Label → Prop
  | mk {ds : List Char} {n : Nat} (h : Decimal.SpellsNat ds n) (hn : n < UInt64.size) :
    SpellsLabel ("label".toList ++ (ds ++ ['%'])) ⟨UInt64.ofNat n⟩

/-- An operand: a name that can be written after its sign, or a label. -/
inductive SpellsOperand : List Char → ListedOperand → Prop
  | variableName {name : String} (h : WritableName name) :
    SpellsOperand ('@' :: name.toList) (.variableName name)
  | address {cs : List Char} {l : Label} (h : SpellsLabel cs l) : SpellsOperand cs (.address l)

/-- What stands behind a mnemonic: nothing, or a tab and operands, one or more, with commas between
them. -/
inductive SpellsOperands : List Char → List ListedOperand → Prop
  | nil : SpellsOperands [] []
  | list {fs : List (List Char)} {os : List ListedOperand} (hne : fs ≠ [])
    (h : List.Forall₂ SpellsOperand fs os) : SpellsOperands ('\t' :: Text.joinFields fs) os

/-- What stands before the tab of a line: nothing, or a label and its colon. -/
inductive SpellsFront : List Char → Option Label → Prop
  | nil : SpellsFront [] none
  | label {cs : List Char} {l : Label} (h : SpellsLabel cs l) :
    SpellsFront (cs ++ " :".toList) (some l)

/-- An instruction line, whether or not its operands suit its mnemonic. -/
inductive SpellsInstruction : List Char → ListedInstruction → Prop
  | mk {front rest : List Char} {label : Option Label} {op : Opcode} {os : List ListedOperand}
    (hfront : SpellsFront front label) (hrest : SpellsOperands rest os) :
    SpellsInstruction (front ++ '\t' :: (op.mnemonic.toList ++ rest)) ⟨label, op, os⟩

/-- The operands have the shape. -/
inductive HasShape : List ListedOperand → Shape → Prop
  | empty : HasShape [] .empty
  | one (a : String) : HasShape [.variableName a] .one
  | two (a b : String) : HasShape [.variableName a, .variableName b] .two
  | three (a b c : String) :
    HasShape [.variableName a, .variableName b, .variableName c] .three
  | target (l : Label) : HasShape [.address l] .target
  | oneTarget (a : String) (l : Label) : HasShape [.variableName a, .address l] .oneTarget

theorem listedShape?_eq_some_iff {os : List ListedOperand} {s : Shape} :
    listedShape? os = some s ↔ HasShape os s := by
  constructor
  · intro h
    unfold listedShape? at h
    split at h
    · obtain rfl := Option.some.inj h
      exact .empty
    · obtain rfl := Option.some.inj h
      exact .one _
    · obtain rfl := Option.some.inj h
      exact .two _ _
    · obtain rfl := Option.some.inj h
      exact .three _ _ _
    · obtain rfl := Option.some.inj h
      exact .target _
    · obtain rfl := Option.some.inj h
      exact .oneTarget _ _
    · cases h
  · rintro ⟨⟩ <;> rfl

theorem Decimal.uint64?_eq_some_iff {cs : List Char} {m : UInt64} : uint64? cs = some m ↔
    ∃ n, SpellsNat cs n ∧ n < UInt64.size ∧ UInt64.ofNat n = m := by
  simp only [uint64?, Option.bind_eq_some_iff, nat?_eq_some_iff, Option.ite_none_right_eq_some,
    Option.some.injEq]

theorem Label.ofChars?_eq_some_iff {cs : List Char} {l : Label} :
    Label.ofChars? cs = some l ↔ SpellsLabel cs l := by
  constructor
  · intro h
    obtain ⟨r, hr, h⟩ := Option.bind_eq_some_iff.mp h
    split at h
    · next hlast =>
      obtain ⟨ds, rfl⟩ := List.getLast?_eq_some_iff.mp hlast
      rw [List.dropLast_concat] at h
      obtain ⟨m, hm, rfl⟩ := Option.map_eq_some_iff.mp h
      obtain ⟨n, hn, hsize, rfl⟩ := Decimal.uint64?_eq_some_iff.mp hm
      exact dropStart?_eq_some hr ▸ .mk hn hsize
    · cases h
  · rintro @⟨ds, n, hds, hn⟩
    rw [ofChars?, dropStart?_append]
    simp only [bind, Option.bind]
    rw [List.getLast?_concat, if_pos rfl, List.dropLast_concat, ofDigits?,
      Decimal.uint64?_eq_some_iff.mpr ⟨n, hds, hn, rfl⟩]
    rfl

/-- A label has no characters but those of its word, digits and the percent sign. -/
theorem SpellsLabel.mem {cs : List Char} {l : Label} (h : SpellsLabel cs l) {c : Char}
    (hc : c ∈ cs) : c ∈ "label%".toList ∨ c.isDigit = true := by
  obtain @⟨ds, n, hds, -⟩ := h
  rcases List.mem_append.mp hc with hc | hc
  · exact .inl (List.mem_append_left ['%'] hc)
  · rcases List.mem_append.mp hc with hc | hc
    · exact .inr (hds.digits c hc)
    · exact .inl (List.mem_append_right "label".toList hc)

theorem SpellsLabel.comma_not_mem {cs : List Char} {l : Label} (h : SpellsLabel cs l) :
    ',' ∉ cs := fun hc => absurd (h.mem hc) (by decide)

theorem SpellsLabel.space_not_mem {cs : List Char} {l : Label} (h : SpellsLabel cs l) :
    ' ' ∉ cs := fun hc => absurd (h.mem hc) (by decide)

theorem ListedOperand.ofChars?_eq_some_iff {cs : List Char} {o : ListedOperand} :
    ListedOperand.ofChars? cs = some o ↔ SpellsOperand cs o := by
  constructor
  · intro h
    unfold ListedOperand.ofChars? at h
    split at h
    · obtain ⟨name, hname, rfl⟩ := Option.map_eq_some_iff.mp h
      obtain ⟨rfl, hwritable⟩ := nameOfChars?_eq_some_iff.mp hname
      exact .variableName hwritable
    · obtain ⟨l, hl, rfl⟩ := Option.map_eq_some_iff.mp h
      exact .address (Label.ofChars?_eq_some_iff.mp hl)
  · intro h
    cases h with
    | variableName h =>
      exact Option.map_eq_some_iff.mpr ⟨_, nameOfChars?_eq_some_iff.mpr ⟨rfl, h⟩, rfl⟩
    | address h =>
      unfold ListedOperand.ofChars?
      split
      · exact absurd (h.mem List.mem_cons_self) (by decide)
      · exact Option.map_eq_some_iff.mpr ⟨_, Label.ofChars?_eq_some_iff.mpr h, rfl⟩

theorem SpellsOperand.comma_not_mem {cs : List Char} {o : ListedOperand}
    (h : SpellsOperand cs o) : ',' ∉ cs := by
  cases h with
  | variableName h => simpa using h.comma_not_mem
  | address h => exact h.comma_not_mem

namespace Text

theorem fields_ne_nil (cs : List Char) : fields cs ≠ [] := by
  induction cs using split_induction ',' with
  | whole cs h => simp [fields_of_not_mem h]
  | split cs r h _ => simp [fields_append_comma h]

/-- The fields of a text, with the commas put back. -/
theorem joinFields_fields (cs : List Char) : joinFields (fields cs) = cs := by
  induction cs using split_induction ',' with
  | whole cs h => simp [fields_of_not_mem h, joinFields]
  | split cs r h ih =>
    obtain ⟨f, fs, hr⟩ := List.exists_cons_of_ne_nil (fields_ne_nil r)
    rw [fields_append_comma h, hr, joinFields_cons_cons, ← hr, ih]

end Text

/-- What stands on the right stands for something on the left. -/
theorem exists_left_of_forall₂ {α β : Type} {R : α → β → Prop} {xs : List α} {ys : List β}
    (h : List.Forall₂ R xs ys) : ∀ y ∈ ys, ∃ x ∈ xs, R x y := by
  induction h with
  | nil => exact fun y hy => nomatch hy
  | cons hxy _ ih =>
    intro y hy
    rcases List.mem_cons.mp hy with rfl | hy
    · exact ⟨_, List.mem_cons_self, hxy⟩
    · obtain ⟨x, hx, h⟩ := ih y hy
      exact ⟨x, List.mem_cons_of_mem _ hx, h⟩

/-- What stands on the left has something on the right. -/
theorem exists_right_of_forall₂ {α β : Type} {R : α → β → Prop} {xs : List α} {ys : List β}
    (h : List.Forall₂ R xs ys) : ∀ x ∈ xs, ∃ y ∈ ys, R x y := by
  intro x hx
  obtain ⟨y, hy, hxy⟩ := exists_left_of_forall₂ h.flip x hx
  exact ⟨y, hy, hxy⟩

/-- What is read one by one. -/
theorem mapM_eq_some_iff {α β : Type} {read : α → Option β} {xs : List α} {ys : List β} :
    xs.mapM read = some ys ↔ List.Forall₂ (fun x y => read x = some y) xs ys := by
  induction xs generalizing ys with
  | nil => simp [eq_comm]
  | cons x xs ih =>
    simp only [List.mapM_cons, bind, Option.bind_eq_some_iff, ih, pure, Option.some.injEq]
    rw [List.forall₂_cons_left_iff]
    grind

theorem listedOperands?_eq_some_iff {cs : List Char} {os : List ListedOperand} :
    listedOperands? cs = some os ↔ SpellsOperands cs os := by
  constructor
  · intro h
    unfold listedOperands? at h
    split at h
    · obtain rfl := Option.some.inj h
      exact .nil
    · next cs =>
      have hall := mapM_eq_some_iff.mp h
      simp only [ListedOperand.ofChars?_eq_some_iff] at hall
      rw [← Text.joinFields_fields cs]
      exact .list (Text.fields_ne_nil cs) hall
    · cases h
  · rintro (_ | @⟨fs, _, hne, hall⟩)
    · rfl
    · obtain ⟨f, fs, rfl⟩ := List.exists_cons_of_ne_nil hne
      have hcomma : ∀ q ∈ f :: fs, ',' ∉ q :=
        ((List.forall₂_and_left _ _).mp (hall.imp fun _ _ h => ⟨h.comma_not_mem, h⟩)).1
      rw [listedOperands?, Text.fields_joinFields hcomma, mapM_eq_some_iff]
      simpa only [ListedOperand.ofChars?_eq_some_iff] using hall

theorem cutLabel?_eq_some_iff {line cs : List Char} {label : Option Label} :
    cutLabel? line = some (label, cs) ↔
      ∃ front, SpellsFront front label ∧ line = front ++ '\t' :: cs := by
  constructor
  · intro h
    unfold cutLabel? at h
    split at h
    · cases h
      exact ⟨[], .nil, rfl⟩
    · obtain ⟨l, hl, h⟩ := Option.bind_eq_some_iff.mp h
      obtain ⟨r, hr, h⟩ := Option.bind_eq_some_iff.mp h
      cases h
      refine ⟨_, .label (Label.ofChars?_eq_some_iff.mp hl), ?_⟩
      calc line
        _ = line.takeWhile (· ≠ ' ') ++ line.dropWhile (· ≠ ' ') :=
          List.takeWhile_append_dropWhile.symm
        _ = line.takeWhile (· ≠ ' ') ++ (" :\t".toList ++ cs) := by rw [dropStart?_eq_some hr]
        _ = line.takeWhile (· ≠ ' ') ++ " :".toList ++ '\t' :: cs := by simp
  · rintro ⟨front, _ | @⟨cs', l, hl⟩, rfl⟩
    · rfl
    · rw [List.append_assoc]
      exact cutLabel?_label (Label.ofChars?_eq_some_iff.mpr hl) hl.space_not_mem cs

/-- **The instructions that are read** are those that are spelled, with operands of some shape. -/
theorem cutInstruction?_eq_some_iff {line : List Char} {i : ListedInstruction} {s : Shape} :
    cutInstruction? line = some (i, s) ↔ SpellsInstruction line i ∧ HasShape i.operands s := by
  constructor
  · intro h
    simp only [cutInstruction?, bind, Option.bind_eq_some_iff] at h
    obtain ⟨⟨label, cs⟩, hlabel, op, hop, os, hos, shape, hshape, hi⟩ := h
    cases hi
    obtain ⟨front, hfront, rfl⟩ := cutLabel?_eq_some_iff.mp hlabel
    have hop' : op.mnemonic = String.ofList (cs.takeWhile Char.isAlpha) := by
      simpa using List.find?_some hop
    have hcs : cs = op.mnemonic.toList ++ cs.dropWhile Char.isAlpha := by
      rw [hop', String.toList_ofList, List.takeWhile_append_dropWhile]
    refine ⟨?_, listedShape?_eq_some_iff.mp hshape⟩
    rw [hcs]
    exact .mk hfront (listedOperands?_eq_some_iff.mp hos)
  · rintro ⟨@⟨front, rest, label, op, os, hfront, hrest⟩, hshape⟩
    have hhead : ∀ c ∈ rest.head?, c.isAlpha = false := by
      cases hrest with
      | nil => simp
      | list => simp
    rw [cutInstruction?_of_cutLabel? (cutLabel?_eq_some_iff.mpr ⟨front, hfront, rfl⟩) hhead,
      listedOperands?_eq_some_iff.mpr hrest, Option.bind_some,
      listedShape?_eq_some_iff.mpr hshape]
    rfl

/-! ## 3. Texts -/

namespace Listing

/-- The lines that are not blank. -/
def inked (lines : List (List Char)) : List (List Char) :=
  lines.filter fun line => !Text.isBlankLine line

theorem inked_cons_of_blank {line : List Char} (h : Text.isBlankLine line = true)
    (lines : List (List Char)) : inked (line :: lines) = inked lines := by simp [inked, h]

theorem inked_cons_of_not_blank {line : List Char} (h : ¬Text.isBlankLine line = true)
    (lines : List (List Char)) : inked (line :: lines) = line :: inked lines := by simp [inked, h]

theorem inked_append (ls ms : List (List Char)) : inked (ls ++ ms) = inked ls ++ inked ms :=
  List.filter_append ls ms

theorem inked_eq_self {lines : List (List Char)}
    (h : ∀ line ∈ lines, Text.isBlankLine line = false) : inked lines = lines :=
  List.filter_eq_self.mpr fun line hline => by simp [h line hline]

/-- An instruction line whose operands have the shape that its mnemonic asks for. -/
def SpellsFitting (line : List Char) (i : ListedInstruction) : Prop :=
  SpellsInstruction line i ∧ HasShape i.operands i.opcode.shape

/-- The lines after the begin marker: declarations, the end marker and instructions. -/
inductive SpellsBody : List (List Char) → Listing → Prop
  | mk {ds is : List (List Char)} {l : Listing}
    (hds : List.Forall₂ SpellsDeclaration ds l.declarations)
    (his : List.Forall₂ SpellsFitting is l.code) : SpellsBody (ds ++ endMarker.toList :: is) l

/-- The lines of a listing, blank ones left out. -/
inductive SpellsListing : List (List Char) → Listing → Prop
  | mk {ls : List (List Char)} {l : Listing} (h : SpellsBody ls l) :
    SpellsListing (beginMarker.toList :: ls) l

/-- The end marker is no declaration. -/
theorem not_spellsDeclaration_endMarker (v : ListedVariable) :
    ¬SpellsDeclaration endMarker.toList v := by
  rw [← ListedVariable.ofLine?_eq_some_iff]
  have h : ListedVariable.ofLine? endMarker.toList = none := by decide
  simp [h]

/-- The first line of a body closes the declarations or is one. -/
theorem SpellsBody.cons_iff {line : List Char} {ls : List (List Char)} {l : Listing} :
    SpellsBody (line :: ls) l ↔
      (line = endMarker.toList ∧ l.declarations = [] ∧ List.Forall₂ SpellsFitting ls l.code) ∨
        ∃ v vs, SpellsDeclaration line v ∧ l.declarations = v :: vs ∧
          SpellsBody ls ⟨vs, l.code⟩ := by
  constructor
  · intro h
    generalize hls : line :: ls = all at h
    obtain @⟨ds, is, l, hds, his⟩ := h
    cases ds with
    | nil =>
      obtain ⟨rfl, rfl⟩ := List.cons.inj hls
      exact .inl ⟨rfl, List.forall₂_nil_left_iff.mp hds, his⟩
    | cons d ds =>
      obtain ⟨rfl, rfl⟩ := List.cons.inj hls
      obtain ⟨v, vs, hv, hvs, hl⟩ := List.forall₂_cons_left_iff.mp hds
      exact .inr ⟨v, vs, hv, hl, .mk hvs his⟩
  · rintro (⟨rfl, hnone, his⟩ | ⟨v, vs, hv, hl, hbody⟩)
    · exact @SpellsBody.mk [] ls l (hnone ▸ .nil) his
    · generalize hl' : (⟨vs, l.code⟩ : Listing) = l' at hbody
      obtain @⟨ds, is, l', hds, his⟩ := hbody
      subst hl'
      exact @SpellsBody.mk (line :: ds) is l (hl ▸ .cons hv hds) his

theorem SpellsBody.ne_nil {l : Listing} : ¬SpellsBody [] l := by
  intro h
  generalize hls : [] = all at h
  obtain @⟨ds, is, l, -, -⟩ := h
  simp at hls

theorem SpellsListing.cons_iff {line : List Char} {ls : List (List Char)} {l : Listing} :
    SpellsListing (line :: ls) l ↔ line = beginMarker.toList ∧ SpellsBody ls l := by
  constructor
  · rintro ⟨h⟩
    exact ⟨rfl, h⟩
  · rintro ⟨rfl, h⟩
    exact .mk h

/-! ## 4. Reading -/

/-- One reading after another succeeds when both do. -/
theorem readBind_eq_ok_iff {α β : Type} {x : Except Error α} {f : α → Except Error β} {b : β} :
    (x >>= f) = .ok b ↔ ∃ a, x = .ok a ∧ f a = .ok b := by
  cases x <;> simp [bind, Except.bind]

/-- The end marker starts a listing without declarations. -/
theorem readEnd_eq_ok_iff {x : Except Error (List ListedInstruction)} {l : Listing} :
    (x.map fun code => (⟨[], code⟩ : Listing)) = .ok l ↔ x = .ok l.code ∧ l.declarations = [] := by
  cases x with
  | error e => simp [Except.map]
  | ok code =>
    constructor
    · rintro ⟨⟩
      exact ⟨rfl, rfl⟩
    · rintro ⟨hcode, hnone⟩
      rw [Except.ok.inj hcode, ← hnone]
      rfl

section

variable {lines : List (List Char)} {number : Nat} {line : List Char}
variable {code : List ListedInstruction} {l : Listing}

theorem readVariable_eq_ok_iff {v : ListedVariable} :
    readVariable number line = .ok v ↔ SpellsDeclaration line v := by
  rw [← ListedVariable.ofLine?_eq_some_iff]
  unfold readVariable
  split
  · next h => simp [h]
  · next h => simp [h]

theorem readInstruction_eq_ok_iff {i : ListedInstruction} :
    readInstruction number line = .ok i ↔ SpellsFitting line i := by
  rw [SpellsFitting, ← cutInstruction?_eq_some_iff]
  unfold readInstruction
  split
  · next h => simp [h]
  · next j s h =>
    rw [h]
    split
    · next hs =>
      subst hs
      constructor
      · rintro ⟨⟩
        rfl
      · rintro ⟨⟩
        rfl
    · next hs =>
      constructor
      · rintro ⟨⟩
      · rintro ⟨⟩
        exact absurd rfl hs

theorem readCode_eq_ok_iff :
    readCode number lines = .ok code ↔ List.Forall₂ SpellsFitting (inked lines) code := by
  induction lines generalizing number code with
  | nil =>
    rw [readCode, Except.ok.injEq, eq_comm]
    exact List.forall₂_nil_left_iff.symm
  | cons line rest ih =>
    rw [readCode]
    split
    · next hblank => rw [inked_cons_of_blank hblank, ih]
    · next hblank =>
      rw [inked_cons_of_not_blank hblank, List.forall₂_cons_left_iff]
      simp only [readBind_eq_ok_iff, readInstruction_eq_ok_iff, ih]
      constructor
      · rintro ⟨i, hi, is, his, ⟨⟩⟩
        exact ⟨i, is, hi, his, rfl⟩
      · rintro ⟨i, is, hi, his, rfl⟩
        exact ⟨i, hi, is, his, rfl⟩

theorem readVariables_eq_ok_iff :
    readVariables number lines = .ok l ↔ SpellsBody (inked lines) l := by
  induction lines generalizing number l with
  | nil =>
    constructor
    · rintro ⟨⟩
    · exact fun h => absurd h SpellsBody.ne_nil
  | cons line rest ih =>
    rw [readVariables]
    split
    · next hblank => rw [inked_cons_of_blank hblank, ih]
    · next hblank =>
      rw [inked_cons_of_not_blank hblank, SpellsBody.cons_iff]
      split
      · next hend =>
        subst hend
        simp [readEnd_eq_ok_iff, readCode_eq_ok_iff, not_spellsDeclaration_endMarker, and_comm]
      · next hend =>
        simp only [readBind_eq_ok_iff, readVariable_eq_ok_iff, ih, hend, false_and, false_or]
        constructor
        · rintro ⟨v, hv, l, hl, ⟨⟩⟩
          exact ⟨v, l.declarations, hv, rfl, hl⟩
        · rintro ⟨v, vs, hv, hvs, hl⟩
          exact ⟨v, hv, ⟨vs, l.code⟩, hl, by rw [← hvs]; rfl⟩

theorem readLines_eq_ok_iff :
    readLines number lines = .ok l ↔ SpellsListing (inked lines) l := by
  induction lines generalizing number with
  | nil =>
    constructor
    · rintro ⟨⟩
    · rintro ⟨⟩
  | cons line rest ih =>
    rw [readLines]
    split
    · next hblank => rw [inked_cons_of_blank hblank, ih]
    · next hblank =>
      rw [inked_cons_of_not_blank hblank, SpellsListing.cons_iff]
      split
      · next hbegin => rw [readVariables_eq_ok_iff, and_iff_right hbegin]
      · next hbegin => simp [hbegin]

/-- **A text is read** as what its lines spell, blank ones left out. -/
theorem ofText_eq_ok_iff {text : String} :
    ofText text = .ok l ↔ SpellsListing (inked (Text.lines text.toList)) l := readLines_eq_ok_iff

end

end Listing
end ProcTree
