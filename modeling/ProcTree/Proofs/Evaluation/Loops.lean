/-
# Finished loops are finished

A loop ends when its condition gives false, and a condition that gives a value has done nothing.
So the machine on which the condition was false is the machine that the loop leaves: there the
condition is false still, and the loop, run again, has nothing to do.

* `Run.last_test`: whatever test and body are, a loop that ends has tested false last.
* `Tree.condition_eq_ok_iff`: the test of a loop over trees reads the table and leaves the machine
  alone.
* `Tree.finished_loops`: the condition after the loop, the loop after itself, and a block of the
  loop and itself.  Nothing is assumed of the trees; the body may write and store, and the condition
  need not be an expression.
-/
import ProcTree.Proofs.Evaluation.Order

namespace ProcTree

/-! ## 1. Any loop -/

namespace Run

variable {test : Run Bool} {body : Run Unit} {m m' : Machine}

/-- **The last test of a loop that ends gave false**, and left the machine that the loop leaves.
The induction is on the rounds: a round that is not the last leaves the rest of the loop. -/
theorem last_test {rounds : Nat} (h : repeatWhile test body rounds m = .ok () m') :
    0 < rounds ∧ ∃ m₁, test m₁ = .ok false m' := by
  induction rounds generalizing m with
  | zero => exact absurd h (by simp [repeatWhile])
  | succ rounds ih =>
    refine ⟨Nat.succ_pos rounds, ?_⟩
    obtain ⟨truth, m₁, htest, hrest⟩ := bind_eq_ok_iff.mp h
    cases truth with
    | false =>
      obtain ⟨-, rfl⟩ := pure_eq_ok_iff.mp hrest
      exact ⟨m, htest⟩
    | true =>
      obtain ⟨_, m₂, -, hloop⟩ := bind_eq_ok_iff.mp hrest
      exact (ih hloop).2

/-- A loop whose first test gives false does nothing more, if it has a round to test in. -/
theorem repeatWhile_of_false {rounds : Nat} (hrounds : 0 < rounds) (h : test m = .ok false m') :
    repeatWhile test body rounds m = .ok () m' := by
  obtain ⟨n, rfl⟩ := Nat.exists_eq_add_of_lt hrounds
  rw [Nat.zero_add]
  exact bind_of_ok h

end Run

/-! ## 2. Loops over trees -/

namespace Tree

/-- **A condition that holds or fails to hold has done nothing.**  Its truth is read off the
table. -/
theorem condition_eq_ok_iff {construct : String} {c : Tree} {rounds : Nat} {m m' : Machine}
    {truth : Bool} :
    (c.compute rounds >>= fun r => Run.needed construct r >>= fun v => Run.ofExcept v.asBoolean) m
        = .ok truth m' ↔ c.value m.table = .ok (.boolean truth) ∧ m' = m := by
  rw [operand_eq_ok_iff compute_eq_value_iff]
  constructor
  · rintro ⟨v, hv, hb⟩
    obtain ⟨hb, rfl⟩ := Run.ofExcept_eq_ok_iff.mp hb
    cases v <;> simp_all [Value.asBoolean]
  · rintro ⟨hv, rfl⟩
    exact ⟨.boolean truth, hv, rfl⟩

/-- A loop that ends leaves a table on which its condition is false. -/
theorem value_of_loop {c a : Tree} {rounds : Nat} {m m' : Machine} {r : Option Value}
    (h : (Tree.loop c a).compute rounds m = .ok r m') :
    0 < rounds ∧ c.value m'.table = .ok (.boolean false) := by
  rw [compute] at h
  obtain ⟨_, m₁, hloop, hend⟩ := bind_eq_ok_iff.mp h
  obtain ⟨-, rfl⟩ := pure_eq_ok_iff.mp hend
  obtain ⟨hrounds, m₂, htest⟩ := Run.last_test hloop
  obtain ⟨hv, rfl⟩ := condition_eq_ok_iff.mp htest
  exact ⟨hrounds, hv⟩

/-- A loop whose condition is false does nothing. -/
theorem loop_of_value {c a : Tree} {rounds : Nat} (hrounds : 0 < rounds) {m : Machine}
    (h : c.value m.table = .ok (.boolean false)) :
    (Tree.loop c a).compute rounds m = .ok none m := by
  rw [compute]
  exact bind_of_ok (Run.repeatWhile_of_false hrounds (condition_eq_ok_iff.mpr ⟨h, rfl⟩))

/-- A statement that has nothing to do after itself is as good as twice. -/
theorem compute_block_twice {t : Tree} {rounds : Nat} (ht : t.staticType = none)
    (h : ∀ m m', t.compute rounds m = .ok none m' → t.compute rounds m' = .ok none m') :
    (Tree.block [t, t]).compute rounds = t.compute rounds := by
  funext m
  rw [compute, computeAll, computeAll, computeAll]
  cases hfirst : t.compute rounds m with
  | error s m' => exact bind_of_error (bind_of_error (discard_eq_error_iff.mpr hfirst))
  | ok r m' =>
    obtain rfl := compute_statement ht rounds m r m' hfirst
    have hd : discard (t.compute rounds) m = .ok () m' := discard_eq_ok_iff.mpr ⟨none, hfirst⟩
    have hd' : discard (t.compute rounds) m' = .ok () m' :=
      discard_eq_ok_iff.mpr ⟨none, h m m' hfirst⟩
    exact bind_of_ok ((bind_of_ok hd).trans (bind_of_ok hd'))

/-- **Finished loops are finished.**  If a loop ends, its condition gives false on the table that
it leaves, and the same loop run at once ends too, with any number of rounds, and changes and writes
nothing.  So a block of a loop and the same loop again is that loop: it ends alike from every
machine, whether in success, in failure or for lack of rounds. -/
theorem finished_loops (c a : Tree) :
    (∀ rounds m r m', (Tree.loop c a).compute rounds m = .ok r m' →
      c.EvaluatesTo m'.table (.boolean false) ∧
        ∀ again output, 0 < again →
          (Tree.loop c a).compute again ⟨m'.table, output⟩ = .ok none ⟨m'.table, output⟩) ∧
      ∀ rounds,
        (Tree.block [.loop c a, .loop c a]).compute rounds = (Tree.loop c a).compute rounds := by
  refine ⟨fun rounds m r m' h => ?_, fun rounds => compute_block_twice rfl fun m m' h => ?_⟩
  · obtain ⟨-, hv⟩ := value_of_loop h
    exact ⟨evaluatesTo_of_value hv, fun again output hagain => loop_of_value hagain hv⟩
  · obtain ⟨hrounds, hv⟩ := value_of_loop h
    exact loop_of_value hrounds hv

/-- A loop that counts down from three and writes what it counts.  Four rounds are enough, the last
one for the test that gives false; after it one round is. -/
theorem finished_loops_countdown :
    let x : Handle := ⟨"x", .integer⟩
    let c : Tree := .binary (.comparison .less) (.constant (.integer 0)) (.reference x)
    let less : Tree := .binary (.arithmetic .subtract) (.reference x) (.constant (.integer 1))
    let a : Tree := .block [.write (.reference x) true, .assign x less]
    let m : Machine := ⟨⟨[⟨"x", .integer, .integer 3⟩], "_tempVar", 0⟩, .unbounded⟩
    ∃ r m', (Tree.loop c a).compute 4 m = .ok r m' ∧ m'.output.text = "3\n2\n1\n" ∧
      c.EvaluatesTo m'.table (.boolean false) ∧
      (Tree.loop c a).compute 1 ⟨m'.table, m'.output⟩ = .ok none ⟨m'.table, m'.output⟩ ∧
      (Tree.block [.loop c a, .loop c a]).compute 4 m = .ok r m' := by
  intro x c less a m
  obtain ⟨r, h⟩ := eq_ok_of_isSome (x := (Tree.loop c a).compute 4) (s := m) (by decide +kernel)
  have htext : (leaves ((Tree.loop c a).compute 4) m).output.text = "3\n2\n1\n" := by
    decide +kernel
  obtain ⟨hfalse, hagain⟩ := (finished_loops c a).1 4 m r _ h
  have htwice := congrFun ((finished_loops c a).2 4) m
  exact ⟨r, _, h, htext, hfalse, hagain 1 _ Nat.one_pos, htwice.trans h⟩

end Tree
end ProcTree
