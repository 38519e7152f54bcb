/-
# Compilation of accepted trees is total

Lowering has many ways to fail: an operand without a value, an assignment of the wrong type, a
temporary without a type, a variable that is not declared, a missing instruction.  On an accepted
tree whose handles are registered the last one is left, and it comes from comparisons of booleans
or strings only.  Labels of the structured layout pair up, so a compilation fails when the tree has
such a comparison (`Tree.compile_ends`), and reports the first one in the order of lowering.
-/
import ProcTree.Proofs.Lowering.Pairing
import ProcTree.Proofs.Lowering.Typed

namespace ProcTree
namespace Tree
open Builder

variable {t : Tree} {options : Options} {table : Table}

/-- How a structured compilation of an accepted tree ends: with the fault of the tree, or with a
program. -/
theorem compile_ends (hc : t.check = .ok ()) (hr : t.RegisteredIn table)
    (hlayout : options.layout = .structured) (hfit : t.labelCount ≤ UInt64.size) :
    Ends (fun _ _ => True) (fun _ _ => True) t.fault? (t.compile options) table := by
  have hends := lower_ends .structured t hc (b := .ofTable table) hr
  rw [lowered_structured] at hends
  cases hf : t.fault? with
  | some e =>
    rw [hf] at hends
    obtain ⟨b, hl⟩ := hends
    exact ⟨b.table, compile_of_error hc (hlayout ▸ hl)⟩
  | none =>
    rw [hf] at hends
    obtain ⟨r, b, hl, -, -⟩ := hends
    have hlabels := (lower_closes t hl).check hfit
    exact .of_ok (compile_of_ok hc (hlayout ▸ hl) fun _ => hlabels) trivial trivial

/-- **Compilation of an accepted tree fails on comparisons of booleans or strings only.**  Let the
handles of the tree be registered, the layout be the structured one, and the labels have sixty-four
bits.  Then the compilation fails exactly if some node compares booleans or strings.  The error is
that there is no instruction for this comparison on this kind, for the first such node in the order
of lowering.  If there is no such node there is a program. -/
theorem compile_total (hc : t.check = .ok ()) (hr : t.RegisteredIn table)
    (hlayout : options.layout = .structured) (hfit : t.labelCount ≤ UInt64.size) :
    ((∃ e table', t.compile options table = .error e table') ↔
        ∃ u ∈ t.subtrees, ∃ c k, u.Compares c k) ∧
      (∀ e table', t.compile options table = .error e table' →
        ∃ before u after, t.postorder = before ++ u :: after ∧
          (∃ c k, u.Compares c k ∧ e = .unsupportedOperation c.symbol k.name) ∧
            ∀ w ∈ before, ∀ c k, ¬ w.Compares c k) ∧
      ((∀ u ∈ t.subtrees, ∀ c k, ¬ u.Compares c k) →
        ∃ p table', t.compile options table = .ok p table') := by
  have hends := compile_ends hc hr hlayout hfit
  refine ⟨⟨?_, ?_⟩, ?_, ?_⟩
  · rintro ⟨e, table', h⟩
    obtain ⟨before, u, after, horder, ⟨c, k, hu, -⟩, -⟩ := fault?_eq_some_iff.mp (hends.error h)
    have hmem : u ∈ t.postorder := horder ▸ List.mem_append_right before List.mem_cons_self
    exact ⟨u, mem_postorder_iff.mp hmem, c, k, hu⟩
  · rintro ⟨u, hu, c, k, hcompares⟩
    cases hf : t.fault? with
    | none => exact absurd hcompares (fault?_eq_none_iff.mp hf u hu c k)
    | some e =>
      rw [hf] at hends
      obtain ⟨table', h⟩ := hends
      exact ⟨e, table', h⟩
  · intro e table' h
    exact fault?_eq_some_iff.mp (hends.error h)
  · intro hnone
    rw [fault?_eq_none_iff.mpr hnone] at hends
    obtain ⟨p, table', h, -, -⟩ := hends
    exact ⟨p, table', h⟩

/-- The theorem at work on a loop whose condition compares a comparison of numbers with one of
strings.  The comparison of strings comes first of those without an instruction, and with the
comparison of numbers alone the loop compiles. -/
theorem compile_total_strings :
    let x : Handle := ⟨"x", .integer⟩
    let a : Tree := .constant (.string "a")
    let numbers : Tree := .binary (.comparison .less) (.reference x) (.constant (.real 1))
    let strings : Tree := .binary (.comparison .less) a a
    let t : Tree := .loop (.binary (.comparison .equal) numbers strings) (.block [])
    let table : Table := ⟨[⟨"x", .integer, .integer 0⟩], "_tempVar", 0⟩
    (∃ table', t.compile .standard table =
        .error (.unsupportedOperation "<" "String") table') ∧
      (∃ before u after, t.postorder = before ++ u :: after ∧ u.Compares .less .string ∧
        ∀ w ∈ before, ∀ c k, ¬ w.Compares c k) ∧
      ∃ p table', (Tree.loop numbers (.block [])).compile .standard table = .ok p table' := by
  intro x a numbers strings t table
  have registered : ∀ u : Tree, (∀ h ∈ u.handles, h = x) → u.RegisteredIn table := by
    intro u hu h hh
    rw [hu h hh]
    rfl
  have hr : t.RegisteredIn table := registered t (by decide)
  have hr' : (Tree.loop numbers (.block [])).RegisteredIn table := registered _ (by decide)
  obtain ⟨table', hfail⟩ : ∃ table', t.compile .standard table =
      .error (.unsupportedOperation "<" "String") table' := ⟨_, rfl⟩
  obtain ⟨before, u, after, horder, ⟨c, k, hu, he⟩, hbefore⟩ :=
    (@compile_total t .standard table rfl hr rfl (by decide)).2.1 _ table' hfail
  obtain ⟨hc, hk⟩ : "<" = c.symbol ∧ "String" = k.name := by simpa using he
  obtain rfl : Kind.string = k := Kind.name_injective hk
  obtain rfl : c = .less := by cases c <;> simp [Comparison.symbol] at hc ⊢
  refine ⟨⟨table', hfail⟩, ⟨before, u, after, horder, hu, hbefore⟩, ?_⟩
  exact (@compile_total (.loop numbers (.block [])) .standard table rfl hr' rfl (by decide)).2.2
    (fault?_eq_none_iff.mp rfl)

end Tree
end ProcTree
