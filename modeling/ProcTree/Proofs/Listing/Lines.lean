/-
# Lines of program text are read back

Each kind of line is read by a function of its own, which inverts the function that writes it:
`ListedVariable.ofLine?_declaration` for declarations and `cutInstruction?_chars` for instructions.
The names on the line must be writable; about its values only one thing is assumed, that a real is
read back from its text.

No line contains a line break (`Text.Unbroken`): names have no blanks, and a string literal escapes
its breaks.
-/
import ProcTree.Code.Program
import ProcTree.Listing.Reading
import ProcTree.Proofs.Listing.Breaks

namespace ProcTree

open Text (Unbroken)

/-! ## 1. Names -/

/-- A name that program text can hold: not empty, without commas and blanks. -/
def WritableName (name : String) : Prop :=
  name ≠ "" ∧ ∀ c ∈ name.toList, c ≠ ',' ∧ Text.isBlank c = false

instance (name : String) : Decidable (WritableName name) :=
  decidable_of_iff (name ≠ "" ∧ name.toList.all fun c => c ≠ ',' && !Text.isBlank c)
    (by simp [WritableName])

/-- **The names that are read are the writable ones.** -/
theorem nameOfChars?_eq_some_iff {cs : List Char} {name : String} :
    nameOfChars? cs = some name ↔ name.toList = cs ∧ WritableName name := by
  unfold nameOfChars?
  split
  · next h =>
    constructor
    · intro hn
      obtain rfl := Option.some.inj hn
      refine ⟨String.toList_ofList, fun he => h.1 ?_, fun c hc => ?_⟩
      · simpa using congrArg String.toList he
      · rw [String.toList_ofList] at hc
        simpa using List.all_eq_true.mp h.2 c hc
    · rintro ⟨rfl, -⟩
      rw [String.ofList_toList]
  · next h =>
    constructor
    · exact fun hn => nomatch hn
    · rintro ⟨rfl, hne, hall⟩
      refine absurd ⟨fun he => hne ?_, List.all_eq_true.mpr fun c hc => ?_⟩ h
      · simpa using congrArg String.ofList he
      · simpa using hall c hc

namespace WritableName

variable {name : String}

theorem comma_not_mem (h : WritableName name) : ',' ∉ name.toList := fun hc => (h.2 ',' hc).1 rfl

theorem unbroken (h : WritableName name) : Unbroken name.toList := by
  intro c hc
  have hb := (h.2 c hc).2
  constructor
  · rintro rfl
    exact absurd hb (by decide)
  · rintro rfl
    exact absurd hb (by decide)

end WritableName

/-! ## 2. Values -/

namespace Decimal

theorem unbroken_of_isDigit {cs : List Char} (h : ∀ c ∈ cs, c.isDigit = true) : Unbroken cs := by
  intro c hc
  have hd := h c hc
  constructor
  · rintro rfl
    exact absurd hd (by decide)
  · rintro rfl
    exact absurd hd (by decide)

theorem unbroken_natChars (n : Nat) : Unbroken (natChars n) :=
  unbroken_of_isDigit fun _ hc => isDigit_of_mem_natChars hc

theorem unbroken_intChars (i : Int) : Unbroken (intChars i) := by
  cases i with
  | ofNat n => exact unbroken_natChars n
  | negSucc n => exact Unbroken.cons_iff.mpr ⟨by decide, unbroken_natChars (n + 1)⟩

/-- The digits of a decimal are digits of a number. -/
theorem isDigit_ofScaled (n : Nat) (e : Int) :
    ∀ c ∈ (Fraction.ofScaled n e).digits, c.isDigit = true := by
  intro c hc
  rw [Fraction.ofScaled, List.mem_reverse] at hc
  exact isDigit_of_mem_natChars (List.mem_reverse.mp ((List.dropWhile_sublist _).subset hc))

theorem isDigit_shortestFrom (i : Interval) (e : Int) (finer : Nat) :
    ∀ c ∈ (shortestFrom i e finer).digits, c.isDigit = true := by
  induction finer generalizing e with
  | zero => exact isDigit_ofScaled _ _
  | succ finer ih =>
    rw [shortestFrom]
    split
    · exact isDigit_ofScaled _ _
    · exact ih (e - 1)

/-- What a layout adds to the digits are zeros, points, its own signs and an exponent. -/
theorem Layout.unbroken_write {l : Layout} {f : Fraction} (hf : Unbroken f.digits)
    (ht : Unbroken l.wholeTail) (hm : Unbroken [l.exponentMark]) : Unbroken (l.write f) := by
  have zeros : ∀ n, Unbroken (List.replicate n '0') := by
    intro n c hc
    rw [List.eq_of_mem_replicate hc]
    decide
  have part : ∀ {ds : List Char}, ds ⊆ f.digits → Unbroken ds := fun h => hf.of_subset h
  unfold Layout.write
  split
  · unfold Layout.positional
    simp only
    split
    · simp [zeros, hf]
    · split
      · simp [zeros, hf, ht]
      · simp [part (List.take_subset _ _), part (List.drop_subset _ _)]
  · unfold Layout.scientific
    simp only
    have hmark : l.exponentMark ≠ '\n' ∧ l.exponentMark ≠ '\r' := hm _ (by simp)
    split
    · simp [part (List.take_subset _ _), hmark, unbroken_intChars]
    · simp [part (List.take_subset _ _), part (List.tail_sublist _).subset, hmark,
        unbroken_intChars]

end Decimal

theorem unbroken_realChars (x : Float) : Unbroken (realChars x) := by
  have sign : ∀ s, Unbroken (signChars s) := by
    intro s
    cases s <;> simp [signChars]
  unfold realChars
  split
  · simp
  · simp [sign]
  · simp [sign]
  · refine Unbroken.append_iff.mpr ⟨sign _, ?_⟩
    exact Decimal.Layout.unbroken_write
      (Decimal.unbroken_of_isDigit (Decimal.isDigit_shortestFrom _ _ _))
      (by simp [realLayout]) (by simp [realLayout])

/-- A line break is written with two other characters inside a literal. -/
theorem unbroken_escapeChar (c : Char) : Unbroken (Text.escapeChar c) := by
  unfold Text.escapeChar
  split
  · simp
  · simp
  · simp
  · simp
  · simp
  · next hn hr _ => simpa using ⟨hn, hr⟩

theorem unbroken_escape (s : List Char) : Unbroken (Text.escape s) := by
  intro c hc
  obtain ⟨d, -, hd⟩ := List.mem_flatMap.mp hc
  exact unbroken_escapeChar d c hd

theorem unbroken_literal (s : List Char) : Unbroken (Text.literal s) := by
  simp [Text.literal, unbroken_escape]

theorem Variable.unbroken_valueChars (v : Value) : Unbroken (Variable.valueChars v) := by
  cases v with
  | boolean b => cases b <;> simp [Variable.valueChars, Value.text]
  | integer i =>
    simp [Variable.valueChars, Value.text, Decimal.intText, Decimal.unbroken_intChars]
  | real x => simp [Variable.valueChars, Value.text, realText, unbroken_realChars]
  | string s => exact unbroken_literal s.toList

theorem Decimal.int64?_intChars (i : Int64) : int64? (intChars i.toInt) = some i := by
  have hlo := Int64.minValue_le i
  have hhi := Int64.le_maxValue i
  rw [int64?, int?_intChars, Option.bind_some, if_pos ⟨Int64.le_iff_toInt_le.mp hlo,
    Int64.le_iff_toInt_le.mp hhi⟩, Int64.ofInt_toInt]

/-- **A value is read back** from what a declaration writes, if reals are. -/
theorem Value.ofChars?_valueChars {v : Value}
    (hreal : ∀ x, v = .real x → real? (realChars x) = some x) :
    Value.ofChars? v.kind (Variable.valueChars v) = some v := by
  cases v with
  | boolean b => cases b <;> decide
  | integer i =>
    simp [Value.kind, Value.ofChars?, Variable.valueChars, Value.text, Decimal.intText,
      Decimal.int64?_intChars]
  | real x =>
    simp [Value.kind, Value.ofChars?, Variable.valueChars, Value.text, realText, hreal x rfl]
  | string s =>
    simp [Value.kind, Value.ofChars?, Variable.valueChars, Text.ofLiteral?_literal]

/-! ## 3. Declaration lines -/

theorem dropStart?_append (p cs : List Char) : dropStart? p (p ++ cs) = some cs := by
  induction p with
  | nil => cases cs <;> rfl
  | cons c p ih => simp [dropStart?, ih]

theorem dropStart?_eq_some {p cs r : List Char} (h : dropStart? p cs = some r) : cs = p ++ r := by
  induction p generalizing cs with
  | nil =>
    obtain rfl : cs = r := by cases cs <;> exact Option.some.inj h
    rfl
  | cons c p ih =>
    cases cs with
    | nil => cases h
    | cons d cs =>
      rw [dropStart?] at h
      split at h
      · next hc => rw [hc, ih h, List.cons_append]
      · cases h

/-- A field without commas is cut off at the comma behind it. -/
theorem cutComma?_append {p : List Char} (h : ',' ∉ p) (r : List Char) :
    cutComma? (p ++ ',' :: r) = some (p, r) := by
  obtain ⟨htake, hdrop⟩ := Text.span_ne_append h r
  rw [cutComma?, htake, hdrop]

theorem cutComma?_eq_some {cs p r : List Char} (h : cutComma? cs = some (p, r)) :
    cs = p ++ ',' :: r := by
  by_cases hm : ',' ∈ cs
  · obtain ⟨q, s, rfl, hq⟩ := List.eq_append_cons_of_mem hm
    rw [cutComma?_append hq] at h
    cases h
    rfl
  · have hall : ∀ c ∈ cs, decide (c ≠ ',') = true :=
      fun c hc => decide_eq_true fun e => hm (e ▸ hc)
    rw [cutComma?, ← List.append_nil cs, List.dropWhile_append_of_pos hall] at h
    cases h

theorem Kind.unbroken_name (k : Kind) : Unbroken k.name.toList := by cases k <;> simp [Kind.name]

theorem Kind.comma_not_mem_name (k : Kind) : ',' ∉ k.name.toList := by cases k <;> decide

namespace Variable

/-- The declaration as the program text has it. -/
def listed (v : Variable) : ListedVariable := ⟨v.name, v.value⟩

theorem declaration_toList (v : Variable) : v.declaration.toList =
    "    %var\t@".toList ++ (v.name.toList ++ ',' :: (v.kind.name.toList ++
      ',' :: valueChars v.value)) := by
  simp [declaration]

theorem unbroken_declaration {v : Variable} (h : WritableName v.name) :
    Unbroken v.declaration.toList := by
  rw [declaration_toList]
  simp [h.unbroken, v.kind.unbroken_name, unbroken_valueChars]

end Variable

/-- A declaration with a writable name is read if its value is. -/
theorem ListedVariable.ofLine?_append {name : String} {k : Kind} {cs : List Char} {v : Value}
    (hn : WritableName name) (hv : Value.ofChars? k cs = some v) :
    ofLine? ("    %var\t@".toList ++ (name.toList ++ ',' :: (k.name.toList ++ ',' :: cs))) =
      some ⟨name, v⟩ := by
  have hname : nameOfChars? name.toList = some name := nameOfChars?_eq_some_iff.mpr ⟨rfl, hn⟩
  rw [ofLine?, dropStart?_append]
  simp only [bind, Option.bind]
  rw [cutComma?_append hn.comma_not_mem]
  simp only
  rw [cutComma?_append k.comma_not_mem_name]
  simp only [hname, String.ofList_toList, Kind.ofName?_name, hv]
  rfl

/-- **A declaration line is read back.** -/
theorem ListedVariable.ofLine?_declaration {v : Variable} (hv : v.WellKinded)
    (hn : WritableName v.name) (hreal : ∀ x, v.value = .real x → real? (realChars x) = some x) :
    ListedVariable.ofLine? v.declaration.toList = some v.listed := by
  have hvalue : Value.ofChars? v.kind (Variable.valueChars v.value) = some v.value :=
    hv ▸ Value.ofChars?_valueChars hreal
  rw [v.declaration_toList, ofLine?_append hn hvalue]
  rfl

/-! ## 4. Instruction lines -/

/-- What is read one by one is read in order. -/
theorem mapM_map_eq_some {α β γ : Type} {read : β → Option γ} {write : α → β} {listed : α → γ}
    {xs : List α} (h : ∀ x ∈ xs, read (write x) = some (listed x)) :
    (xs.map write).mapM read = some (xs.map listed) := by
  induction xs with
  | nil => rfl
  | cons x xs ih =>
    rw [List.map_cons, List.mapM_cons, h x List.mem_cons_self,
      ih fun y hy => h y (List.mem_cons_of_mem x hy)]
    rfl

namespace Label

theorem unbroken_chars (l : Label) : Unbroken l.chars := by
  simp [chars, digits, Decimal.unbroken_natChars]

theorem comma_not_mem_chars (l : Label) : ',' ∉ l.chars := by
  have hd : ',' ∉ l.digits := fun h =>
    absurd (Decimal.isDigit_of_mem_natChars h) (by decide)
  simp [chars, hd]

theorem space_not_mem_chars (l : Label) : ' ' ∉ l.chars := by
  have hd : ' ' ∉ l.digits := fun h =>
    absurd (Decimal.isDigit_of_mem_natChars h) (by decide)
  simp [chars, hd]

/-- A label is read back. -/
theorem ofChars?_chars (l : Label) : ofChars? l.chars = some l := by
  have hc : l.chars = "label".toList ++ (l.digits ++ ['%']) := by simp [chars]
  rw [hc, ofChars?, dropStart?_append]
  simp [bind, Option.bind, ofDigits?_digits]

end Label

namespace Operands

/-- The operands as the program text has them. -/
def listed (o : Operands) : List ListedOperand :=
  o.handles.map (fun h => .variableName h.name) ++ o.target?.toList.map .address

/-- The names of the operands can be written. -/
def Writable (o : Operands) : Prop := ∀ h ∈ o.handles, WritableName h.name

theorem listedShape?_listed (o : Operands) : listedShape? o.listed = some o.shape := by
  cases o <;> rfl

theorem unbroken_fields {o : Operands} (h : o.Writable) : ∀ f ∈ o.fields, Unbroken f := by
  intro f hf
  rcases List.mem_append.mp hf with hf | hf
  · obtain ⟨g, hg, rfl⟩ := List.mem_map.mp hf
    simp [(h g hg).unbroken]
  · obtain ⟨l, -, rfl⟩ := List.mem_map.mp hf
    exact l.unbroken_chars

theorem comma_not_mem_fields {o : Operands} (h : o.Writable) : ∀ f ∈ o.fields, ',' ∉ f := by
  intro f hf
  rcases List.mem_append.mp hf with hf | hf
  · obtain ⟨g, hg, rfl⟩ := List.mem_map.mp hf
    simp [(h g hg).comma_not_mem]
  · obtain ⟨l, -, rfl⟩ := List.mem_map.mp hf
    exact l.comma_not_mem_chars

/-- Each operand is read back. -/
theorem mapM_ofChars?_fields {o : Operands} (h : o.Writable) :
    o.fields.mapM ListedOperand.ofChars? = some o.listed := by
  have names : ∀ g ∈ o.handles,
      ListedOperand.ofChars? ('@' :: g.name.toList) = some (.variableName g.name) := by
    intro g hg
    rw [ListedOperand.ofChars?, nameOfChars?_eq_some_iff.mpr ⟨rfl, h g hg⟩]
    rfl
  have addresses : ∀ l ∈ o.target?.toList, ListedOperand.ofChars? l.chars = some (.address l) := by
    intro l _
    have hc : ListedOperand.ofChars? l.chars = (Label.ofChars? l.chars).map .address := rfl
    rw [hc, l.ofChars?_chars]
    rfl
  rw [fields, List.mapM_append, mapM_map_eq_some names, mapM_map_eq_some addresses]
  rfl

end Operands

namespace Opcode

/-- Mnemonics are letters. -/
theorem isAlpha_mnemonic (op : Opcode) : ∀ c ∈ op.mnemonic.toList, c.isAlpha = true := by
  have h : ∀ o ∈ all, o.mnemonic.toList.all Char.isAlpha = true := by decide +kernel
  exact fun c hc => List.all_eq_true.mp (h op (mem_all op)) c hc

theorem unbroken_mnemonic (op : Opcode) : Unbroken op.mnemonic.toList := by
  intro c hc
  have ha := op.isAlpha_mnemonic c hc
  constructor
  · rintro rfl
    exact absurd ha (by decide)
  · rintro rfl
    exact absurd ha (by decide)

end Opcode

/-- A label that is read is cut off with the colon and the tab after it. -/
theorem cutLabel?_label {cs : List Char} {l : Label} (h : Label.ofChars? cs = some l)
    (hspace : ' ' ∉ cs) (r : List Char) :
    cutLabel? (cs ++ (" :".toList ++ '\t' :: r)) = some (some l, r) := by
  obtain ⟨htake, hdrop⟩ := Text.span_ne_append hspace (':' :: '\t' :: r)
  have hline : cs ++ (" :".toList ++ '\t' :: r) = cs ++ ' ' :: ':' :: '\t' :: r := by simp
  rw [hline]
  unfold cutLabel?
  split
  · next heq =>
    -- No label begins with a tab.
    rcases List.cons_eq_append_iff.mp heq.symm with ⟨-, he⟩ | ⟨t, rfl, -⟩
    · cases he
    · cases h
  · rw [htake, hdrop, h]
    rfl

/-- Behind its label, a line is cut into a mnemonic and what comes after it. -/
theorem cutInstruction?_of_cutLabel? {line cs : List Char} {label : Option Label} {op : Opcode}
    (hlabel : cutLabel? line = some (label, op.mnemonic.toList ++ cs))
    (h : ∀ c ∈ cs.head?, c.isAlpha = false) : cutInstruction? line =
      (listedOperands? cs).bind fun os => (listedShape? os).map fun s => (⟨label, op, os⟩, s) := by
  obtain ⟨htake, hdrop⟩ := Text.span_append op.isAlpha_mnemonic h
  rw [cutInstruction?, hlabel]
  simp only [bind, Option.bind]
  rw [htake, hdrop, String.ofList_toList, Opcode.ofMnemonic?_mnemonic]
  simp only
  cases listedOperands? cs with
  | none => rfl
  | some os => cases hs : listedShape? os <;> simp [hs]

namespace Instruction

/-- The instruction as the program text has it. -/
def listed (i : Instruction) : ListedInstruction := ⟨i.label, i.opcode, i.operands.listed⟩

/-- The characters of the operands, with the tab before them. -/
def operandChars (i : Instruction) : List Char :=
  match i.operands.fields with
  | [] => []
  | fs => '\t' :: Text.joinFields fs

theorem chars_eq (i : Instruction) :
    i.chars = labelChars i.label ++ (i.opcode.mnemonic.toList ++ i.operandChars) :=
  List.append_assoc (labelChars i.label) i.opcode.mnemonic.toList i.operandChars

/-- The label of a line is cut off, and so is its absence. -/
theorem cutLabel?_labelChars (label : Option Label) (rest : List Char) :
    cutLabel? (labelChars label ++ rest) = some (label, rest) := by
  cases label with
  | none => rfl
  | some l =>
    have hline : labelChars (some l) ++ rest = l.chars ++ (" :".toList ++ '\t' :: rest) := by
      simp [labelChars]
    rw [hline, cutLabel?_label l.ofChars?_chars l.space_not_mem_chars]

/-- The operands of a line are read back. -/
theorem listedOperands?_operandChars {i : Instruction} (h : i.operands.Writable) :
    listedOperands? i.operandChars = some i.operands.listed := by
  have hfields := Operands.mapM_ofChars?_fields h
  have hcomma := Operands.comma_not_mem_fields h
  unfold operandChars
  cases hf : i.operands.fields with
  | nil =>
    rw [hf] at hfields
    exact hfields
  | cons f fs =>
    rw [hf] at hfields hcomma
    rw [listedOperands?, Text.fields_joinFields hcomma]
    exact hfields

/-- A line is cut into its label, its mnemonic and what comes after it. -/
theorem cutInstruction?_append (label : Option Label) (op : Opcode) {cs : List Char}
    (h : ∀ c ∈ cs.head?, c.isAlpha = false) :
    cutInstruction? (labelChars label ++ (op.mnemonic.toList ++ cs)) =
      (listedOperands? cs).bind fun os => (listedShape? os).map fun s => (⟨label, op, os⟩, s) :=
  cutInstruction?_of_cutLabel? (cutLabel?_labelChars label _) h

/-- **An instruction line is read back.** -/
theorem cutInstruction?_chars {i : Instruction} (h : i.operands.Writable) :
    cutInstruction? i.chars = some (i.listed, i.opcode.shape) := by
  have hstop : ∀ c ∈ i.operandChars.head?, c.isAlpha = false := by
    unfold operandChars
    split <;> simp
  rw [chars_eq, cutInstruction?_append i.label i.opcode hstop, listedOperands?_operandChars h,
    Option.bind_some, Operands.listedShape?_listed, i.fits]
  rfl

theorem unbroken_operandChars {i : Instruction} (h : i.operands.Writable) :
    Unbroken i.operandChars := by
  have hfields := Operands.unbroken_fields h
  unfold operandChars
  split
  · simp
  · exact Unbroken.cons_iff.mpr ⟨by decide, Text.unbroken_joinFields hfields⟩

theorem unbroken_labelChars (label : Option Label) : Unbroken (labelChars label) := by
  cases label with
  | none => simp [labelChars]
  | some l => simp [labelChars, l.unbroken_chars]

theorem unbroken_chars {i : Instruction} (h : i.operands.Writable) : Unbroken i.chars := by
  rw [chars_eq]
  exact Unbroken.append_iff.mpr ⟨unbroken_labelChars i.label,
    Unbroken.append_iff.mpr ⟨i.opcode.unbroken_mnemonic, unbroken_operandChars h⟩⟩

/-- An instruction line has the letters of its mnemonic. -/
theorem isBlankLine_chars (i : Instruction) : Text.isBlankLine i.chars = false := by
  have hmem : 'O' ∈ i.opcode.mnemonic.toList := by simp [Opcode.mnemonic]
  refine Text.isBlankLine_eq_false (c := 'O') ?_ (by decide)
  rw [chars_eq]
  exact List.mem_append_right _ (List.mem_append_left _ hmem)

end Instruction
end ProcTree
