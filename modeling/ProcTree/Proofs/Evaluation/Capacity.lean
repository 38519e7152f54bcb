/-
# Outputs with a capacity

What a run writes, and how it ends, is settled by its tree and its table; the output is only written
to.  So a run has a script: the bytes that it writes one after another and its end after them
(`Run.Writes`).  An output with room for all the bytes lets the script through.  An output without
it takes the bytes that there is room for, and the write that does not fit ends the run at once.

Scripts follow one after another as runs do (`Run.scripted_bind`), and so every evaluation has one
(`Tree.compute_bounded`).  The script does not know what the output held before, so that this has no
influence either.
-/
import ProcTree.Proofs.Evaluation.Composition
import ProcTree.Proofs.Evaluation.Frame

namespace ProcTree

/-! ## 1. Room -/

namespace Output

/-- How many more bytes there is room for; without a bound there is none to give. -/
def room (o : Output) : Option Nat := o.capacity.map fun n => n - o.bytes.length

/-- There is room for these bytes. -/
def Takes (o : Output) (bs : List UInt8) : Prop := ∀ n, o.room = some n → bs.length ≤ n

theorem fitting_of_room {o : Output} {n : Nat} (h : o.room = some n) (bs : List UInt8) :
    o.fitting bs = bs.take n := by
  obtain ⟨c, hc, rfl⟩ := Option.map_eq_some_iff.mp h
  rw [fitting, hc]

theorem fitting_of_takes {o : Output} {bs : List UInt8} (h : o.Takes bs) :
    o.fitting bs = bs := by
  cases hr : o.room with
  | some n => rw [fitting_of_room hr, List.take_of_length_le (h n hr)]
  | none => rw [fitting, Option.map_eq_none_iff.mp hr]

/-- What is written takes up room. -/
theorem room_append (o : Output) (bs : List UInt8) :
    (o.append bs).room = o.room.map fun n => n - bs.length := by
  cases hc : o.capacity with
  | none => simp [room, append, hc]
  | some c =>
    simp only [room, append, hc, fitting, Option.map_some, Option.some.injEq, List.length_append,
      List.length_take]
    omega

theorem append_nil (o : Output) : o.append [] = o := by
  have h : o.fitting [] = [] := by cases hc : o.capacity <;> simp [fitting, hc]
  rw [append, h, List.append_nil]

/-- The second of two texts fits into the room that the first one leaves. -/
theorem fitting_append (o : Output) (xs ys : List UInt8) :
    o.fitting (xs ++ ys) = o.fitting xs ++ (o.append xs).fitting ys := by
  have hleft := o.room_append xs
  cases hr : o.room with
  | none =>
    have hall : ∀ {o : Output}, o.room = none → ∀ bs, o.fitting bs = bs :=
      fun h bs => fitting_of_takes fun n hn => by simp [h] at hn
    rw [hr, Option.map_none] at hleft
    rw [hall hr, hall hr, hall hleft]
  | some n =>
    rw [hr, Option.map_some] at hleft
    rw [fitting_of_room hr, fitting_of_room hr, fitting_of_room hleft, List.take_append]

/-- Two writes are one write of both texts, however much room there is. -/
theorem append_append (o : Output) (xs ys : List UInt8) :
    (o.append xs).append ys = o.append (xs ++ ys) :=
  calc (o.append xs).append ys
      = { o with bytes := o.bytes ++ o.fitting xs ++ (o.append xs).fitting ys } := rfl
    _ = { o with bytes := o.bytes ++ o.fitting (xs ++ ys) } := by
      rw [fitting_append, List.append_assoc]
    _ = o.append (xs ++ ys) := rfl

/-- What does not fit leaves no room. -/
theorem append_of_exceeds {o : Output} {n : Nat} {xs : List UInt8} (hr : o.room = some n)
    (hn : n < xs.length) (ys : List UInt8) : o.append (xs ++ ys) = o.append xs := by
  have hfull : (o.append xs).room = some 0 := by
    rw [room_append, hr, Option.map_some, Nat.sub_eq_zero_of_le (Nat.le_of_lt hn)]
  rw [← append_append, append, fitting_of_room hfull, List.take_zero, List.append_nil]

theorem takes_left {o : Output} {xs ys : List UInt8} (h : o.Takes (xs ++ ys)) : o.Takes xs := by
  intro n hn
  have := h n hn
  rw [List.length_append] at this
  omega

theorem takes_right {o : Output} {xs ys : List UInt8} (h : o.Takes (xs ++ ys)) :
    (o.append xs).Takes ys := by
  intro n hn
  rw [room_append] at hn
  obtain ⟨k, hk, rfl⟩ := Option.map_eq_some_iff.mp hn
  have := h k hk
  rw [List.length_append] at this
  omega

end Output

/-! ## 2. Scripts -/

namespace Run

variable {α β : Type}

/-- The end of a run, on a machine with this output. -/
def endOn (o : Output) : EStateM.Result Stop Table α → EStateM.Result Stop Machine α
  | .ok a table => .ok a ⟨table, o⟩
  | .error s table => .error s ⟨table, o⟩

/-- **The script of a run from a table**: the bytes that it writes, and how it ends after them.  On
an output with room for `n` bytes and no more, where `n` bytes are not enough, it fails with a table
that depends on `n` only. -/
structure Writes (x : Run α) (table : Table) (bs : List UInt8) (r : EStateM.Result Stop Table α)
    (stops : Nat → Table) : Prop where
  done : ∀ o : Output, o.Takes bs → x ⟨table, o⟩ = endOn (o.append bs) r
  cut : ∀ (o : Output) n, o.room = some n → n < bs.length →
    x ⟨table, o⟩ = .error (.failed Output.overflow) ⟨stops n, o.append bs⟩

/-- The run has a script, whatever table it starts from. -/
def Scripted (x : Run α) : Prop := ∀ table, ∃ bs r stops, x.Writes table bs r stops

/-- A run that does not touch the output has an empty script. -/
theorem writes_nothing {x : Run α} {table : Table} {r : EStateM.Result Stop Table α}
    (h : ∀ o, x ⟨table, o⟩ = endOn o r) : x.Writes table [] r fun _ => table :=
  ⟨fun o _ => by rw [o.append_nil]; exact h o, fun _ _ _ hn => absurd hn (Nat.not_lt_zero _)⟩

theorem scripted_pure (a : α) : Scripted (pure a : Run α) :=
  fun table => ⟨[], .ok a table, _, writes_nothing fun _ => rfl⟩

theorem scripted_throw (s : Stop) : Scripted (throw s : Run α) :=
  fun table => ⟨[], .error s table, _, writes_nothing fun _ => rfl⟩

/-- **The script of a sequence** is that of its first part, and that of its second part after it.
The first write that does not fit is in the first part, if it writes more than there is room for,
and else in the second. -/
theorem scripted_bind {x : Run α} {f : α → Run β} (hx : Scripted x) (hf : ∀ a, Scripted (f a)) :
    Scripted (x >>= f) := by
  intro table
  obtain ⟨xs, r, stops, hx⟩ := hx table
  cases r with
  | error s table₁ =>
    refine ⟨xs, .error s table₁, stops, fun o ho => ?_, fun o n hr hn => ?_⟩
    · exact bind_of_error (hx.done o ho)
    · exact bind_of_error (hx.cut o n hr hn)
  | ok a table₁ =>
    obtain ⟨ys, r', stops', hf⟩ := hf a table₁
    refine ⟨xs ++ ys, r', fun n => if n < xs.length then stops n else stops' (n - xs.length),
      fun o ho => ?_, fun o n hr hn => ?_⟩
    · rw [bind_of_ok (hx.done o (Output.takes_left ho)), ← o.append_append]
      exact hf.done _ (Output.takes_right ho)
    · by_cases hfirst : n < xs.length
      · rw [if_pos hfirst, Output.append_of_exceeds hr hfirst]
        exact bind_of_error (hx.cut o n hr hfirst)
      · have htakes : o.Takes xs := by
          intro k hk
          obtain rfl : n = k := Option.some.inj (hr.symm.trans hk)
          omega
        have hleft : (o.append xs).room = some (n - xs.length) := by
          rw [Output.room_append, hr, Option.map_some]
        rw [if_neg hfirst, bind_of_ok (hx.done o htakes), ← o.append_append]
        rw [List.length_append] at hn
        exact hf.cut _ _ hleft (by omega)

theorem scripted_composed : Run.Composed fun x (_ : Run _) => Scripted x :=
  ⟨scripted_pure, scripted_throw, scripted_bind⟩

theorem scripted_read (h : Handle) : Scripted (Run.read h) := by
  intro table
  cases hv : table.valueOf h with
  | ok v => exact ⟨[], .ok v table, _, writes_nothing fun o => by rw [read_apply, hv]; rfl⟩
  | error e =>
    exact ⟨[], .error (.failed e) table, _, writes_nothing fun o => by rw [read_apply, hv]; rfl⟩

theorem scripted_store (h : Handle) (v : Value) : Scripted (Run.store h v) := by
  intro table
  cases ha : table.assign h v with
  | ok table' => exact ⟨[], .ok () table', _, writes_nothing fun o => by rw [store_apply, ha]; rfl⟩
  | error e =>
    exact ⟨[], .error (.failed e) table, _, writes_nothing fun o => by rw [store_apply, ha]; rfl⟩

/-- A write has its text for a script. -/
theorem scripted_put (s : String) : Scripted (Run.put s) := by
  intro table
  refine ⟨Output.encode s, .ok () table, fun _ => table, fun o ho => ?_, fun o n hr hn => ?_⟩
  · have hok : (o.write s).1 = .ok () := if_pos (Output.fitting_of_takes ho)
    rw [put_apply, hok]
    rfl
  · have hshort : o.fitting (Output.encode s) ≠ Output.encode s := by
      intro h
      rw [Output.fitting_of_room hr] at h
      have := congrArg List.length h
      rw [List.length_take] at this
      omega
    have herror : (o.write s).1 = .error Output.overflow := if_neg hshort
    rw [put_apply, herror]
    rfl

end Run

/-! ## 3. Bounded runs -/

namespace Output

/-- The output without a bound. -/
def unlimited (o : Output) : Output := { o with capacity := none }

/-- The output with room for so many more bytes. -/
def bounded (o : Output) (n : Nat) : Output := { o with capacity := some (o.bytes.length + n) }

/-- The output with these bytes after its own. -/
def extend (o : Output) (bs : List UInt8) : Output := { o with bytes := o.bytes ++ bs }

theorem takes_unlimited (o : Output) (bs : List UInt8) : o.unlimited.Takes bs :=
  fun _ hn => nomatch hn

theorem room_bounded (o : Output) (n : Nat) : (o.bounded n).room = some n := by
  simp [room, bounded]

theorem takes_bounded {o : Output} {n : Nat} {bs : List UInt8} (h : bs.length ≤ n) :
    (o.bounded n).Takes bs := by
  intro k hk
  obtain rfl : n = k := Option.some.inj ((o.room_bounded n).symm.trans hk)
  exact h

theorem append_of_takes {o : Output} {bs : List UInt8} (h : o.Takes bs) :
    o.append bs = o.extend bs := by rw [append, fitting_of_takes h, extend]

theorem append_bounded (o : Output) (n : Nat) (bs : List UInt8) :
    (o.bounded n).append bs = (o.bounded n).extend (bs.take n) := by
  rw [append, fitting_of_room (o.room_bounded n), extend]

end Output

/-- **A bound cuts the output and stops the run, and does nothing else.**  Evaluation of a tree from
a table comes with the bytes that it writes and the way it ends, whatever the output holds already.
Without a bound, and with room for at least these bytes, it writes them and ends in this way.  With
room for fewer it writes as many of them as there is room for and then fails because the output is
full, with a table that depends on the room only. -/
theorem Tree.compute_bounded (t : Tree) (rounds : Nat) (table : Table) :
    ∃ (written : List UInt8) (r : EStateM.Result Stop Table (Option Value))
      (stops : Nat → Table), ∀ o : Output,
        t.compute rounds ⟨table, o.unlimited⟩ = Run.endOn (o.unlimited.extend written) r ∧
        ∀ n, (written.length ≤ n →
            t.compute rounds ⟨table, o.bounded n⟩ = Run.endOn ((o.bounded n).extend written) r) ∧
          (n < written.length →
            t.compute rounds ⟨table, o.bounded n⟩ = .error (.failed Output.overflow)
              ⟨stops n, (o.bounded n).extend (written.take n)⟩) := by
  have hscript : Run.Scripted (t.compute rounds) :=
    t.compute_composed Run.scripted_composed rounds (fun g _ => Run.scripted_read g)
      (fun g _ v => Run.scripted_store g v) Run.scripted_put
  obtain ⟨written, r, stops, h⟩ := hscript table
  refine ⟨written, r, stops, fun o => ⟨?_, fun n => ⟨fun hn => ?_, fun hn => ?_⟩⟩⟩
  · have htakes : o.unlimited.Takes written := Output.takes_unlimited o written
    rw [h.done _ htakes, Output.append_of_takes htakes]
  · have htakes : (o.bounded n).Takes written := Output.takes_bounded hn
    rw [h.done _ htakes, Output.append_of_takes htakes]
  · rw [h.cut _ n (o.room_bounded n) hn, Output.append_bounded]

/-- A line with seven, an assignment and a line with forty-two, after an exclamation mark: with room
for all five bytes, with room for all but the last newline, and with room for the seven only. -/
theorem Tree.compute_bounded_lines :
    let x : Handle := ⟨"x", .integer⟩
    let t : Tree := .block [.write (.reference x) true, .assign x (.constant (.integer 42)),
      .write (.reference x) true]
    let table : Table := ⟨[⟨"x", .integer, .integer 7⟩], "_tempVar", 0⟩
    let o : Output := ⟨[33], none, none⟩
    ∃ (r : EStateM.Result Stop Table (Option Value)) (stops : Nat → Table),
      t.compute 0 ⟨table, o.unlimited⟩ =
        Run.endOn ⟨[33, 55, 10, 52, 50, 10], none, none⟩ r ∧
      t.compute 0 ⟨table, o.bounded 5⟩ =
        Run.endOn ⟨[33, 55, 10, 52, 50, 10], some 6, none⟩ r ∧
      t.compute 0 ⟨table, o.bounded 4⟩ =
        .error (.failed Output.overflow) ⟨stops 4, ⟨[33, 55, 10, 52, 50], some 5, none⟩⟩ ∧
      t.compute 0 ⟨table, o.bounded 1⟩ =
        .error (.failed Output.overflow) ⟨stops 1, ⟨[33, 55], some 2, none⟩⟩ := by
  intro x t table o
  obtain ⟨written, r, stops, h⟩ := compute_bounded t 0 table
  obtain ⟨hunlimited, hbounded⟩ := h o
  have hbytes : (leaves (t.compute 0) ⟨table, o.unlimited⟩).output.bytes =
      [33, 55, 10, 52, 50, 10] := by decide +kernel
  have hwritten : 33 :: written = [33, 55, 10, 52, 50, 10] := by
    rw [leaves, hunlimited] at hbytes
    cases r <;> exact hbytes
  obtain rfl : written = [55, 10, 52, 50, 10] := (List.cons.inj hwritten).2
  exact ⟨r, stops, hunlimited, (hbounded 5).1 (by decide), (hbounded 4).2 (by decide),
    (hbounded 1).2 (by decide)⟩

end ProcTree
