/-
# Validation of listings is exact

A listing is accepted if and only if it is valid (`Listing.Valid`): every name is declared once,
every operand is declared, and labels and jumps pair up.  Otherwise the report names the first fault
of its class, and the classes have an order (`Listing.Invalid`).

A program is checked for its labels only, and its text is checked as a listing.  Both checks agree
on a closed program with a table's declarations (`Listing.check_exact`): its names are distinct, so
only labels are left to be reported, and these are read back as they are.  The values are not all
known to be read back, but each is read as some value of its kind (`Variable.reread`).
-/
import ProcTree.Proofs.Listing.Numerals
import ProcTree.Proofs.Lowering.Closure
import ProcTree.Proofs.Use

namespace ProcTree

/-! ## 1. Valid listings -/

/-- The instruction jumps to this label: no other label comes before it among the operands. -/
def ListedInstruction.JumpsTo (i : ListedInstruction) (target : Label) : Prop :=
  ∃ before after, i.operands = before ++ .address target :: after ∧ ∀ l, .address l ∉ before

theorem ListedOperand.address?_eq_none_iff {o : ListedOperand} :
    o.address? = none ↔ ∀ l, .address l ≠ o := by
  cases o <;> simp [address?]

theorem ListedOperand.address?_eq_some_iff {o : ListedOperand} {l : Label} :
    o.address? = some l ↔ o = .address l := by
  cases o <;> simp [address?]

theorem ListedInstruction.target?_eq_some_iff {i : ListedInstruction} {target : Label} :
    i.target? = some target ↔ i.JumpsTo target := by
  simp only [target?, List.findSome?_eq_some_iff, ListedOperand.address?_eq_some_iff,
    ListedOperand.address?_eq_none_iff]
  constructor
  · rintro ⟨before, _, after, hsplit, rfl, hbefore⟩
    exact ⟨before, after, hsplit, fun l hl => hbefore _ hl l rfl⟩
  · rintro ⟨before, after, hsplit, hbefore⟩
    exact ⟨before, _, after, hsplit, rfl, fun o ho l hl => hbefore l (hl ▸ ho)⟩

namespace Listing

/-- The attached labels, in order. -/
def labels (l : Listing) : List Label := l.code.filterMap ListedInstruction.label

/-- The jump targets, in order. -/
def targets (l : Listing) : List Label := l.code.filterMap ListedInstruction.target?

/-- What a listing must satisfy. -/
structure Valid (l : Listing) : Prop where
  names : l.names.Nodup
  operands : ∀ i ∈ l.code, ∀ name, .variableName name ∈ i.operands → name ∈ l.names
  labels : l.labels.Nodup
  jumps : ∀ i ∈ l.code, ∀ target, i.JumpsTo target → target ∈ l.labels

/-- What is wrong with a listing: a repeated declaration comes before an undeclared operand, and
that before labels. -/
inductive Invalid (l : Listing) : Error → Prop
  | repeated {name : String} (h : FirstRepeat l.names name) : Invalid l (.alreadyDeclared name)
  | undeclared {name : String} (hn : l.names.Nodup)
    (h : FirstMissing l.names l.operandNames name) : Invalid l (.notDeclared name)
  | labels {e : Error} (hn : l.names.Nodup) (hd : l.operandNames ⊆ l.names)
    (h : Mispaired l.labels l.targets e) : Invalid l e

variable {l : Listing}

theorem mem_operandNames_iff {name : String} :
    name ∈ l.operandNames ↔ ∃ i ∈ l.code, .variableName name ∈ i.operands := by
  have hname : ∀ o : ListedOperand, o.name? = some name ↔ o = .variableName name := by
    intro o
    cases o <;> simp [ListedOperand.name?]
  simp only [operandNames, List.mem_flatMap, List.mem_filterMap, hname, exists_eq_right]

theorem mem_targets_iff {target : Label} :
    target ∈ l.targets ↔ ∃ i ∈ l.code, i.JumpsTo target := by
  simp only [targets, List.mem_filterMap, ListedInstruction.target?_eq_some_iff]

theorem valid_iff : l.Valid ↔
    l.names.Nodup ∧ l.operandNames ⊆ l.names ∧ l.labels.Nodup ∧ l.targets ⊆ l.labels := by
  constructor
  · rintro ⟨hn, hoperands, hlabels, hjumps⟩
    refine ⟨hn, fun name hname => ?_, hlabels, fun target htarget => ?_⟩
    · obtain ⟨i, hi, hname⟩ := mem_operandNames_iff.mp hname
      exact hoperands i hi name hname
    · obtain ⟨i, hi, htarget⟩ := mem_targets_iff.mp htarget
      exact hjumps i hi target htarget
  · rintro ⟨hn, hoperands, hlabels, hjumps⟩
    exact ⟨hn, fun i hi name hname => hoperands (mem_operandNames_iff.mpr ⟨i, hi, hname⟩), hlabels,
      fun i hi target htarget => hjumps (mem_targets_iff.mpr ⟨i, hi, htarget⟩)⟩

/-! ## 2. The check of listings -/

/-- If every name is declared once and every operand is declared, labels are checked. -/
theorem check_of_declared (hn : l.names.Nodup) (hd : l.operandNames ⊆ l.names) :
    l.check = checkPairing l.labels l.targets := by
  rw [check, firstRepeat?_nil_eq_none_iff.mpr hn, find?_missing_eq_none_iff.mpr hd]
  rfl

theorem check_of_valid (h : l.Valid) : l.check = .ok () := by
  obtain ⟨hn, hd, hlabels⟩ := valid_iff.mp h
  rw [check_of_declared hn hd]
  exact checkPairing_eq_ok_iff.mpr hlabels

theorem check_of_invalid {e : Error} (h : l.Invalid e) : l.check = .error e := by
  cases h with
  | repeated hname => rw [check, firstRepeat?_nil_eq_some_iff.mpr hname]
  | undeclared hn hname =>
    rw [check, firstRepeat?_nil_eq_none_iff.mpr hn, find?_missing_eq_some_iff.mpr hname]
  | labels hn hd hlabels =>
    rw [check_of_declared hn hd]
    exact checkPairing_eq_error_iff.mpr hlabels

/-- Either nothing is wrong with a listing, or there is a first fault. -/
theorem valid_or_invalid (l : Listing) : l.Valid ∨ ∃ e, l.Invalid e := by
  by_cases hn : l.names.Nodup
  · by_cases hd : l.operandNames ⊆ l.names
    · obtain hlabels | ⟨e, he⟩ := nodup_subset_or_mispaired l.labels l.targets
      · exact .inl (valid_iff.mpr ⟨hn, hd, hlabels⟩)
      · exact .inr ⟨e, .labels hn hd he⟩
    · obtain ⟨name, hname⟩ := exists_firstMissing hd
      exact .inr ⟨_, .undeclared hn hname⟩
  · obtain ⟨name, hname⟩ := exists_firstRepeat hn
    exact .inr ⟨_, .repeated hname⟩

/-- **What is reported** of a listing is what is wrong with it. -/
theorem check_eq_error_iff {e : Error} : l.check = .error e ↔ l.Invalid e := by
  refine ⟨fun h => ?_, check_of_invalid⟩
  obtain hvalid | ⟨e', he⟩ := l.valid_or_invalid
  · rw [check_of_valid hvalid] at h
    cases h
  · rw [check_of_invalid he] at h
    cases h
    exact he

/-- **Valid listings are accepted**, and no others. -/
theorem check_eq_ok_iff : l.check = .ok () ↔ l.Valid := by
  refine ⟨fun h => ?_, check_of_valid⟩
  obtain hvalid | ⟨e, he⟩ := l.valid_or_invalid
  · exact hvalid
  · rw [check_of_invalid he] at h
    cases h

end Listing

/-! ## 3. Programs that are read -/

/-- What the declaration is read as.  A value that is not read would be kept. -/
def Variable.reread (v : Variable) : ListedVariable :=
  ⟨v.name, (Value.ofChars? v.kind (valueChars v.value)).getD v.value⟩

theorem Variable.spellsDeclaration_reread {v : Variable} (hv : v.WellKinded)
    (hn : WritableName v.name) : SpellsDeclaration v.declaration.toList v.reread := by
  obtain ⟨w, hw⟩ := v.value.exists_ofChars?_valueChars
  rw [hv] at hw
  have hline := ListedVariable.ofLine?_append hn hw
  rw [← v.declaration_toList] at hline
  rw [reread, hw]
  exact ListedVariable.ofLine?_eq_some_iff.mp hline

/-- The jump of an instruction is that of its line. -/
theorem Instruction.target?_listed (i : Instruction) : i.listed.target? = i.target? := by
  obtain ⟨op, o, label, fits⟩ := i
  cases o <;> rfl

namespace Program

variable {p : Program}

/-- A program is closed if the operands of its instructions are declared as its text has them. -/
theorem Closed.operandNames (hp : p.Closed) :
    p.listing.operandNames ⊆ p.declarations.map Variable.name := by
  rw [operandNames_listing]
  intro name hname
  obtain ⟨i, hi, hname⟩ := List.mem_flatMap.mp hname
  obtain ⟨g, hg, rfl⟩ := List.mem_map.mp hname
  exact hp i hi g hg

/-- The names of a closed program can be written if those of its declarations can. -/
theorem Closed.writable_names (hp : p.Closed) (hw : ∀ v ∈ p.declarations, WritableName v.name) :
    ∀ name ∈ p.names, WritableName name := by
  refine writable_names_iff.mpr ⟨hw, fun i hi g hg => ?_⟩
  obtain ⟨v, hv, hname⟩ := List.mem_map.mp (hp i hi g hg)
  exact hname ▸ hw v hv

/-- **The text of a closed program is checked like the program.** -/
theorem Closed.check_text (hp : p.Closed) (hn : (p.declarations.map Variable.name).Nodup)
    (hkinds : ∀ v ∈ p.declarations, v.WellKinded)
    (hw : ∀ v ∈ p.declarations, WritableName v.name) :
    ∃ l, Listing.ofText p.text = .ok l ∧ l.check = p.check := by
  let l : Listing := ⟨p.declarations.map Variable.reread, p.code.map Instruction.listed⟩
  have htext : Listing.ofText p.text = .ok l := ofText_text_of_spells (hp.writable_names hw)
    fun v hv => v.spellsDeclaration_reread (hkinds v hv) (hw v hv)
  have hnames : l.names = p.declarations.map Variable.name := List.map_map
  have hoperands : l.operandNames ⊆ l.names := hnames ▸ hp.operandNames
  have hlabels : l.labels = p.code.filterMap Instruction.label := List.filterMap_map
  have htargets : l.targets = p.code.filterMap Instruction.target? := by
    have hjump : ListedInstruction.target? ∘ Instruction.listed = Instruction.target? :=
      funext Instruction.target?_listed
    rw [Listing.targets, List.filterMap_map, hjump]
  refine ⟨l, htext, ?_⟩
  -- Names and operands are in order, so both checks look at the same labels and targets.
  rw [Listing.check_of_declared (hnames ▸ hn) hoperands, hlabels, htargets]
  rfl

end Program

namespace Listing

/-- **Validation is exact.**  A listing is accepted exactly if it is valid, and otherwise refused
for what is wrong with it.  And the text of a closed program, whose declarations come from a table
and have names that can be written, is accepted or refused as the labels of the program are,
whatever they are. -/
theorem check_exact :
    (∀ l : Listing, (l.check = .ok () ↔ l.Valid) ∧ ∀ e, l.check = .error e ↔ l.Invalid e) ∧
      ∀ (stem : String) (us : List Use) (code : List Instruction),
        let p : Program := ⟨((Table.empty stem).after us).entries, code⟩
        p.Closed → (∀ v ∈ p.declarations, WritableName v.name) →
          ∃ l, ofText p.text = .ok l ∧ l.check = p.check := by
  refine ⟨fun l => ⟨check_eq_ok_iff, fun e => check_eq_error_iff⟩, ?_⟩
  intro stem us code p hp hw
  have htable := ((Table.empty stem).evolves_after us).wellFormed (Table.wellFormed_empty stem)
  exact hp.check_text htable.names_nodup htable.kinds hw

/-- The theorem at work on a program with a real, a label that is attached twice and a jump that
goes nowhere: its text is refused for the label. -/
theorem check_exact_duplicate :
    let us : List Use := [.declare "b" (some .boolean), .obtainTempOf (.real 0.1)]
    let p : Program := ⟨((Table.empty "_tempVar").after us).entries,
      [⟨.gotoIf, .oneTarget ⟨"b", .boolean⟩ ⟨3⟩, some ⟨0⟩, rfl⟩, .carrier ⟨0⟩]⟩
    p.Closed ∧ (∀ v ∈ p.declarations, WritableName v.name) ∧
      ∃ l, ofText p.text = .ok l ∧ l.check = .error (.duplicateLabel ⟨0⟩) := by
  intro us p
  have hclosed : p.Closed := by decide +kernel
  have hwritable : ∀ v ∈ p.declarations, WritableName v.name := by decide +kernel
  obtain ⟨l, hread, hcheck⟩ := check_exact.2 "_tempVar" us p.code hclosed hwritable
  have hlabels : p.check = .error (.duplicateLabel ⟨0⟩) := by decide
  exact ⟨hclosed, hwritable, l, hread, hcheck.trans hlabels⟩

end Listing
end ProcTree
