/-
# Outcomes of stateful computations

Evaluation and lowering are computations that may fail and keep their state when they do.  Both
are taken apart here, whatever they work on.

* `bind_eq_ok_iff`, `bind_eq_error_iff`: a sequence succeeds when both parts do, and fails where
  its first failing part does.
* `Gives`: a property of every result.  Only the last part of a sequence matters.
* `FailsOnly`: a property of every failure.
* `Keeps`: a relation between the state before and the state after, whatever the outcome.  If the
  relation composes (`Composes`), a sequence keeps what its parts keep.
* `Moves`, `Ends`: the same from one state only, with a property of the result that the next part
  may use.  `Moves` says it for every outcome, `Ends` says which outcome there is.
* `Alike`, `Relates`, `Respects`: two runs side by side.  They end alike if both succeed or both
  fail with the same failure, in related states; two computations relate results if their runs from
  related states end alike, and respect the relation if the results are the same.
-/
import ProcTree.Evaluation

namespace ProcTree

variable {ε σ α β : Type}

/-! ## 1. Sequences -/

/-- **A sequence succeeds** when its first part does and its second part does after it. -/
theorem bind_eq_ok_iff {x : EStateM ε σ α} {f : α → EStateM ε σ β} {s s' : σ} {b : β} :
    (x >>= f) s = .ok b s' ↔ ∃ a s₁, x s = .ok a s₁ ∧ f a s₁ = .ok b s' := by
  change EStateM.bind x f s = .ok b s' ↔ _
  unfold EStateM.bind
  cases x s <;> simp [and_assoc]

/-- **A sequence fails** in its first part, or in its second part after it. -/
theorem bind_eq_error_iff {x : EStateM ε σ α} {f : α → EStateM ε σ β} {s s' : σ} {e : ε} :
    (x >>= f) s = .error e s' ↔
      x s = .error e s' ∨ ∃ a s₁, x s = .ok a s₁ ∧ f a s₁ = .error e s' := by
  change EStateM.bind x f s = .error e s' ↔ _
  unfold EStateM.bind
  cases x s <;> simp [and_assoc]

theorem bind_of_ok {x : EStateM ε σ α} {f : α → EStateM ε σ β} {s s₁ : σ} {a : α}
    (h : x s = .ok a s₁) : (x >>= f) s = f a s₁ := by
  change EStateM.bind x f s = _
  rw [EStateM.bind, h]

theorem bind_of_error {x : EStateM ε σ α} {f : α → EStateM ε σ β} {s s₁ : σ} {e : ε}
    (h : x s = .error e s₁) : (x >>= f) s = .error e s₁ := by
  change EStateM.bind x f s = _
  rw [EStateM.bind, h]

@[simp] theorem pure_apply (a : α) (s : σ) : (pure a : EStateM ε σ α) s = .ok a s := rfl

/-- A computation that only gives a result changes nothing. -/
theorem pure_eq_ok_iff {a b : α} {s s' : σ} :
    (pure a : EStateM ε σ α) s = .ok b s' ↔ b = a ∧ s' = s := by simp [eq_comm]

@[simp] theorem throw_apply (e : ε) (s : σ) : (throw e : EStateM ε σ α) s = .error e s := rfl

theorem discard_eq_ok_iff {x : EStateM ε σ α} {s s' : σ} {u : PUnit} :
    discard x s = .ok u s' ↔ ∃ a, x s = .ok a s' := by
  change EStateM.map (fun _ => PUnit.unit) x s = _ ↔ _
  unfold EStateM.map
  cases x s <;> simp

theorem discard_eq_error_iff {x : EStateM ε σ α} {s s' : σ} {e : ε} :
    discard x s = .error e s' ↔ x s = .error e s' := by
  change EStateM.map (fun _ => PUnit.unit) x s = _ ↔ _
  unfold EStateM.map
  cases x s <;> simp

/-- Discarding a result is a sequence too. -/
theorem discard_eq_bind (x : EStateM ε σ α) :
    (discard x : EStateM ε σ PUnit) = x >>= fun _ => pure ⟨⟩ := by
  funext s
  change EStateM.map (fun _ => PUnit.unit) x s = EStateM.bind x _ s
  unfold EStateM.map EStateM.bind
  cases x s <;> rfl

/-! ## 2. What a computation gives and keeps -/

/-- Every result has the property. -/
def Gives (P : α → Prop) (x : EStateM ε σ α) : Prop := ∀ s a s', x s = .ok a s' → P a

theorem Gives.pure {P : α → Prop} {a : α} (h : P a) : Gives P (pure a : EStateM ε σ α) := by
  intro s b s' hs
  cases hs
  exact h

/-- A sequence gives what its last part gives. -/
theorem Gives.bind {P : β → Prop} {x : EStateM ε σ α} {f : α → EStateM ε σ β}
    (h : ∀ a, Gives P (f a)) : Gives P (x >>= f) := by
  intro s b s' hs
  obtain ⟨a, s₁, -, hf⟩ := bind_eq_ok_iff.mp hs
  exact h a s₁ b s' hf

/-- Every failure has the property. -/
def FailsOnly (P : ε → Prop) (x : EStateM ε σ α) : Prop := ∀ s e s', x s = .error e s' → P e

namespace FailsOnly

variable {P : ε → Prop}

theorem of_ok {x : EStateM ε σ α} (h : ∀ s, ∃ a s', x s = .ok a s') : FailsOnly P x := by
  intro s e s' hs
  obtain ⟨a, s₁, ha⟩ := h s
  exact absurd (ha.symm.trans hs) (by simp)

theorem pure (a : α) : FailsOnly P (pure a : EStateM ε σ α) := of_ok fun s => ⟨a, s, rfl⟩

theorem throw {e : ε} (h : P e) : FailsOnly P (throw e : EStateM ε σ α) := by
  intro s e' s' hs
  cases hs
  exact h

/-- A sequence fails as its parts do. -/
theorem bind {x : EStateM ε σ α} {f : α → EStateM ε σ β} (hx : FailsOnly P x)
    (hf : ∀ a, FailsOnly P (f a)) : FailsOnly P (x >>= f) := by
  intro s e s' hs
  rcases bind_eq_error_iff.mp hs with hs | ⟨a, s₁, -, hs⟩
  · exact hx s e s' hs
  · exact hf a s₁ e s' hs

/-- A part, and then a result. -/
theorem result {x : EStateM ε σ α} (hx : FailsOnly P x) (f : α → β) :
    FailsOnly P (x >>= fun a => Pure.pure (f a)) := bind hx fun a => pure (f a)

theorem discard {x : EStateM ε σ α} (hx : FailsOnly P x) : FailsOnly P (Functor.discard x) :=
  discard_eq_bind x ▸ hx.result _

end FailsOnly

/-- The state that a computation leaves, whether it succeeds or fails. -/
def leaves (x : EStateM ε σ α) (s : σ) : σ :=
  match x s with
  | .ok _ s' => s'
  | .error _ s' => s'

theorem leaves_of_ok {x : EStateM ε σ α} {s s' : σ} {a : α} (h : x s = .ok a s') :
    leaves x s = s' := by rw [leaves, h]

theorem leaves_of_error {x : EStateM ε σ α} {s s' : σ} {e : ε} (h : x s = .error e s') :
    leaves x s = s' := by rw [leaves, h]

/-- A computation that was seen to give a result, with the state that it leaves. -/
theorem eq_ok_of_isSome {x : EStateM ε σ α} {s : σ} (h : (x.run' s).isSome = true) :
    ∃ a, x s = .ok a (leaves x s) := by
  delta EStateM.run' EStateM.run at h
  cases hs : x s with
  | ok a s' => exact ⟨a, by rw [leaves_of_ok hs]⟩
  | error e s' =>
    rw [hs] at h
    exact absurd h (by simp)

/-- A relation that holds of no change and of one change after another. -/
structure Composes (R : σ → σ → Prop) : Prop where
  refl : ∀ s, R s s
  trans : ∀ {s₁ s₂ s₃}, R s₁ s₂ → R s₂ s₃ → R s₁ s₃

/-- The relation holds between the state before and the state after. -/
def Keeps (R : σ → σ → Prop) (x : EStateM ε σ α) : Prop := ∀ s, R s (leaves x s)

namespace Keeps

variable {R : σ → σ → Prop}

theorem of_ok {x : EStateM ε σ α} (hx : Keeps R x) {s s' : σ} {a : α} (h : x s = .ok a s') :
    R s s' := leaves_of_ok h ▸ hx s

theorem of_error {x : EStateM ε σ α} (hx : Keeps R x) {s s' : σ} {e : ε}
    (h : x s = .error e s') : R s s' := leaves_of_error h ▸ hx s

theorem pure (hR : Composes R) (a : α) : Keeps R (pure a : EStateM ε σ α) := fun s => hR.refl s

theorem throw (hR : Composes R) (e : ε) : Keeps R (throw e : EStateM ε σ α) :=
  fun s => hR.refl s

/-- **A sequence keeps what its parts keep.** -/
theorem bind (hR : Composes R) {x : EStateM ε σ α} {f : α → EStateM ε σ β} (hx : Keeps R x)
    (hf : ∀ a, Keeps R (f a)) : Keeps R (x >>= f) := by
  intro s
  cases hs : x s with
  | ok a s₁ =>
    have h := hR.trans (hx.of_ok hs) (hf a s₁)
    rwa [leaves, ← bind_of_ok (f := f) hs] at h
  | error e s₁ => exact leaves_of_error (bind_of_error (f := f) hs) ▸ hx.of_error hs

/-- A part, and then a result. -/
theorem result (hR : Composes R) {x : EStateM ε σ α} (hx : Keeps R x) (f : α → β) :
    Keeps R (x >>= fun a => Pure.pure (f a)) := bind hR hx fun a => pure hR (f a)

end Keeps

/-! ## 3. Computations from one state -/

/-- However the computation ends from this state, the relation holds, and a result has the property
in the state that it leaves. -/
def Moves (R : σ → σ → Prop) (Q : α → σ → Prop) (x : EStateM ε σ α) (s : σ) : Prop :=
  R s (leaves x s) ∧ ∀ a s', x s = .ok a s' → Q a s'

namespace Moves

variable {R : σ → σ → Prop} {Q : α → σ → Prop} {Q' : β → σ → Prop} {s : σ}

theorem of_ok {x : EStateM ε σ α} {s' : σ} {a : α} (h : x s = .ok a s') (hR : R s s')
    (hQ : Q a s') : Moves R Q x s := by
  refine ⟨leaves_of_ok h ▸ hR, ?_⟩
  intro b s₁ hb
  cases h.symm.trans hb
  exact hQ

theorem of_error {x : EStateM ε σ α} {s' : σ} {e : ε} (h : x s = .error e s') (hR : R s s') :
    Moves R Q x s :=
  ⟨leaves_of_error h ▸ hR, fun _ _ hb => absurd (h.symm.trans hb) (by simp)⟩

/-- What is known after a success. -/
theorem ok {x : EStateM ε σ α} {s' : σ} {a : α} (hx : Moves R Q x s) (h : x s = .ok a s') :
    R s s' ∧ Q a s' := ⟨leaves_of_ok h ▸ hx.1, hx.2 a s' h⟩

theorem pure (hR : Composes R) {a : α} (hQ : Q a s) :
    Moves R Q (Pure.pure a : EStateM ε σ α) s := of_ok (pure_apply a s) (hR.refl s) hQ

theorem throw (hR : Composes R) (e : ε) : Moves R Q (throw e : EStateM ε σ α) s :=
  of_error (throw_apply e s) (hR.refl s)

/-- **A sequence moves as its parts do**, the second from a state and with a result that the first
one vouches for. -/
theorem bind (hR : Composes R) {x : EStateM ε σ α} {f : α → EStateM ε σ β} (hx : Moves R Q x s)
    (hf : ∀ a s', R s s' → Q a s' → Moves R Q' (f a) s') : Moves R Q' (x >>= f) s := by
  obtain ⟨hstep, hresult⟩ := hx
  cases hs : x s with
  | ok a s₁ =>
    rw [leaves_of_ok hs] at hstep
    obtain ⟨hstep', hresult'⟩ := hf a s₁ hstep (hresult a s₁ hs)
    have hsame : (x >>= f) s = f a s₁ := bind_of_ok hs
    refine ⟨?_, fun b s' hb => hresult' b s' (hsame ▸ hb)⟩
    rw [leaves, hsame]
    exact hR.trans hstep hstep'
  | error e s₁ =>
    rw [leaves_of_error hs] at hstep
    exact of_error (bind_of_error hs) hstep

theorem discard {x : EStateM ε σ α} (hx : Moves R Q x s) :
    Moves R (fun _ s' => ∃ a, Q a s') (Functor.discard x) s := by
  obtain ⟨hstep, hresult⟩ := hx
  cases hs : x s with
  | ok a s₁ =>
    have hd : Functor.discard x s = .ok ⟨⟩ s₁ := discard_eq_ok_iff.mpr ⟨a, hs⟩
    exact of_ok hd (leaves_of_ok hs ▸ hstep) ⟨a, hresult a s₁ hs⟩
  | error e s₁ => exact of_error (discard_eq_error_iff.mpr hs) (leaves_of_error hs ▸ hstep)

end Moves

/-- From this state the computation fails with the fault if there is one.  If there is none it
succeeds, the relation holds, and the result has the property in the state that it leaves. -/
def Ends (R : σ → σ → Prop) (Q : α → σ → Prop) (fault : Option ε) (x : EStateM ε σ α) (s : σ) :
    Prop :=
  match fault with
  | none => ∃ a s', x s = .ok a s' ∧ R s s' ∧ Q a s'
  | some e => ∃ s', x s = .error e s'

namespace Ends

variable {R : σ → σ → Prop} {Q : α → σ → Prop} {Q' : β → σ → Prop} {s : σ}
  {fault fault' : Option ε}

theorem of_ok {x : EStateM ε σ α} {s' : σ} {a : α} (h : x s = .ok a s') (hR : R s s')
    (hQ : Q a s') : Ends R Q none x s := ⟨a, s', h, hR, hQ⟩

theorem pure (hR : Composes R) {a : α} (hQ : Q a s) :
    Ends R Q none (Pure.pure a : EStateM ε σ α) s := of_ok (pure_apply a s) (hR.refl s) hQ

theorem throw (e : ε) : Ends R Q (some e) (throw e : EStateM ε σ α) s := ⟨s, throw_apply e s⟩

/-- A success means that there is no fault. -/
theorem ok {x : EStateM ε σ α} {s' : σ} {a : α} (hx : Ends R Q fault x s) (h : x s = .ok a s') :
    fault = none ∧ R s s' ∧ Q a s' := by
  cases fault with
  | some e =>
    obtain ⟨s₁, hs⟩ := hx
    exact absurd (h.symm.trans hs) (by simp)
  | none =>
    obtain ⟨b, s₁, hs, hR, hQ⟩ := hx
    cases h.symm.trans hs
    exact ⟨rfl, hR, hQ⟩

/-- A failure is the fault. -/
theorem error {x : EStateM ε σ α} {s' : σ} {e : ε} (hx : Ends R Q fault x s)
    (h : x s = .error e s') : fault = some e := by
  cases fault with
  | some e' =>
    obtain ⟨s₁, hs⟩ := hx
    cases h.symm.trans hs
    rfl
  | none =>
    obtain ⟨b, s₁, hs, -, -⟩ := hx
    exact absurd (h.symm.trans hs) (by simp)

/-- What is known of the result may be forgotten. -/
theorem forget {x : EStateM ε σ α} (hx : Ends R Q fault x s) :
    Ends R (fun _ _ => True) fault x s := by
  cases fault with
  | some e => exact hx
  | none =>
    obtain ⟨a, s', hs, hR, -⟩ := hx
    exact ⟨a, s', hs, hR, trivial⟩

/-- **The first fault of a sequence** is that of its first part, or else that of its second. -/
theorem bind (hR : Composes R) {x : EStateM ε σ α} {f : α → EStateM ε σ β}
    (hx : Ends R Q fault x s)
    (hf : ∀ a s', R s s' → Q a s' → Ends R Q' fault' (f a) s') :
    Ends R Q' (fault.or fault') (x >>= f) s := by
  cases fault with
  | some e =>
    obtain ⟨s₁, hs⟩ := hx
    exact ⟨s₁, bind_of_error hs⟩
  | none =>
    obtain ⟨a, s₁, hs, hstep, hresult⟩ := hx
    have hsame : (x >>= f) s = f a s₁ := bind_of_ok hs
    have hrest := hf a s₁ hstep hresult
    cases fault' with
    | some e =>
      obtain ⟨s', hs'⟩ := hrest
      exact ⟨s', hsame.trans hs'⟩
    | none =>
      obtain ⟨b, s', hs', hstep', hresult'⟩ := hrest
      exact ⟨b, s', hsame.trans hs', hR.trans hstep hstep', hresult'⟩

/-- A first part without a fault. -/
theorem andThen (hR : Composes R) {x : EStateM ε σ α} {f : α → EStateM ε σ β}
    (hx : Ends R Q none x s) (hf : ∀ a s', R s s' → Q a s' → Ends R Q' fault (f a) s') :
    Ends R Q' fault (x >>= f) s := bind hR hx hf

/-- A last part without a fault. -/
theorem finish (hR : Composes R) {x : EStateM ε σ α} {f : α → EStateM ε σ β}
    (hx : Ends R Q fault x s) (hf : ∀ a s', R s s' → Q a s' → Ends R Q' none (f a) s') :
    Ends R Q' fault (x >>= f) s := Option.or_none (o := fault) ▸ bind hR hx hf

theorem discard {x : EStateM ε σ α} (hx : Ends R Q fault x s) :
    Ends R (fun _ s' => ∃ a, Q a s') fault (Functor.discard x) s := by
  cases fault with
  | some e =>
    obtain ⟨s₁, hs⟩ := hx
    exact ⟨s₁, discard_eq_error_iff.mpr hs⟩
  | none =>
    obtain ⟨a, s₁, hs, hstep, hresult⟩ := hx
    exact ⟨⟨⟩, s₁, discard_eq_ok_iff.mpr ⟨a, hs⟩, hstep, a, hresult⟩

end Ends

/-! ## 4. Two runs side by side -/

variable {τ γ δ : Type}

/-- Two runs ended alike: both with results, which go with their states as the property says, or
both with the same failure, in related states. -/
inductive Alike (R : σ → τ → Prop) (Q : α → σ → β → τ → Prop) :
    EStateM.Result ε σ α → EStateM.Result ε τ β → Prop
  | ok {a : α} {s : σ} {b : β} {t : τ} (h : Q a s b t) : Alike R Q (.ok a s) (.ok b t)
  | error {e : ε} {s : σ} {t : τ} (h : R s t) : Alike R Q (.error e s) (.error e t)

namespace Alike

variable {R R' : σ → τ → Prop} {s : σ} {t : τ}

/-- **A sequence ends alike** if its first part does and its second part does after it. -/
theorem bind {Q : α → σ → β → τ → Prop} {Q' : γ → σ → δ → τ → Prop} {x : EStateM ε σ α}
    {y : EStateM ε τ β} {f : α → EStateM ε σ γ} {g : β → EStateM ε τ δ}
    (h : Alike R Q (x s) (y t))
    (hrest : ∀ a s' b t', Q a s' b t' → Alike R Q' (f a s') (g b t')) :
    Alike R Q' ((x >>= f) s) ((y >>= g) t) := by
  generalize hx : x s = p at h
  generalize hy : y t = q at h
  cases h with
  | ok hQ =>
    rw [bind_of_ok hx, bind_of_ok hy]
    exact hrest _ _ _ _ hQ
  | error hR =>
    rw [bind_of_error hx, bind_of_error hy]
    exact .error hR

/-- What is known of the ends may be weakened. -/
theorem mono {Q Q' : α → σ → β → τ → Prop} {x : EStateM.Result ε σ α}
    {y : EStateM.Result ε τ β} (h : Alike R Q x y) (hR : ∀ s t, R s t → R' s t)
    (hQ : ∀ a s b t, Q a s b t → Q' a s b t) : Alike R' Q' x y := by
  cases h with
  | ok h => exact .ok (hQ _ _ _ _ h)
  | error h => exact .error (hR _ _ h)

theorem discard {Q : α → σ → β → τ → Prop} {x : EStateM ε σ α} {y : EStateM ε τ β}
    (h : Alike R Q (x s) (y t)) :
    Alike R (fun u s' v t' => u = v ∧ ∃ a b, Q a s' b t') (Functor.discard x s)
      (Functor.discard y t) := by
  generalize hx : x s = p at h
  generalize hy : y t = q at h
  cases h with
  | ok hQ =>
    have hx' : Functor.discard x s = .ok ⟨⟩ _ := discard_eq_ok_iff.mpr ⟨_, hx⟩
    have hy' : Functor.discard y t = .ok ⟨⟩ _ := discard_eq_ok_iff.mpr ⟨_, hy⟩
    rw [hx', hy']
    exact .ok ⟨rfl, _, _, hQ⟩
  | error hR =>
    rw [discard_eq_error_iff.mpr hx, discard_eq_error_iff.mpr hy]
    exact .error hR

/-- The states that runs leave which end alike. -/
theorem leaves {Q : α → σ → β → τ → Prop} {x : EStateM ε σ α} {y : EStateM ε τ β}
    (h : Alike R Q (x s) (y t)) (hQ : ∀ a s b t, Q a s b t → R s t) :
    R (leaves x s) (leaves y t) := by
  generalize hx : x s = p at h
  generalize hy : y t = q at h
  cases h with
  | ok h =>
    rw [leaves_of_ok hx, leaves_of_ok hy]
    exact hQ _ _ _ _ h
  | error h =>
    rw [leaves_of_error hx, leaves_of_error hy]
    exact h

end Alike

/-- Runs from related states end alike, with related results. -/
def Relates (R : σ → τ → Prop) (M : α → β → Prop) (x : EStateM ε σ α) (y : EStateM ε τ β) :
    Prop := ∀ s t, R s t → Alike R (fun a s' b t' => M a b ∧ R s' t') (x s) (y t)

namespace Relates

variable {R : σ → τ → Prop} {M M' : α → β → Prop} {N : γ → δ → Prop}

theorem pure {a : α} {b : β} (h : M a b) :
    Relates R M (Pure.pure a : EStateM ε σ α) (Pure.pure b : EStateM ε τ β) :=
  fun _ _ hst => .ok ⟨h, hst⟩

theorem throw (e : ε) :
    Relates R M (throw e : EStateM ε σ α) (throw e : EStateM ε τ β) := fun _ _ h => .error h

/-- **A sequence relates** what its parts relate. -/
theorem bind {x : EStateM ε σ α} {y : EStateM ε τ β} {f : α → EStateM ε σ γ}
    {g : β → EStateM ε τ δ} (h : Relates R M x y)
    (hrest : ∀ a b, M a b → Relates R N (f a) (g b)) : Relates R N (x >>= f) (y >>= g) :=
  fun s t hst => (h s t hst).bind fun a s' b t' hQ => hrest a b hQ.1 s' t' hQ.2

/-- What is known of the results may be weakened. -/
theorem mono {x : EStateM ε σ α} {y : EStateM ε τ β} (h : Relates R M x y)
    (hM : ∀ a b, M a b → M' a b) : Relates R M' x y :=
  fun s t hst => (h s t hst).mono (fun _ _ hR => hR) fun a _ b _ hQ => ⟨hM a b hQ.1, hQ.2⟩

theorem discard {x : EStateM ε σ α} {y : EStateM ε τ β} (h : Relates R M x y) :
    Relates R Eq (Functor.discard x) (Functor.discard y) := by
  intro s t hst
  refine (h s t hst).discard.mono (fun _ _ hR => hR) ?_
  rintro u s' v t' ⟨huv, a, b, -, hst'⟩
  exact ⟨huv, hst'⟩

end Relates

/-- Runs from related states end alike, with the same result. -/
def Respects (R : σ → τ → Prop) (x : EStateM ε σ α) (y : EStateM ε τ α) : Prop :=
  ∀ s t, R s t → Alike R (fun a s' b t' => a = b ∧ R s' t') (x s) (y t)

namespace Respects

variable {R : σ → τ → Prop}

theorem pure (a : α) :
    Respects R (Pure.pure a : EStateM ε σ α) (Pure.pure a : EStateM ε τ α) := Relates.pure rfl

theorem throw (e : ε) :
    Respects R (throw e : EStateM ε σ α) (throw e : EStateM ε τ α) := Relates.throw e

/-- **A sequence respects** what its parts respect. -/
theorem bind {x : EStateM ε σ α} {y : EStateM ε τ α} {f : α → EStateM ε σ β}
    {g : α → EStateM ε τ β} (h : Respects R x y) (hrest : ∀ a, Respects R (f a) (g a)) :
    Respects R (x >>= f) (y >>= g) := by
  refine Relates.bind h ?_
  rintro a _ rfl
  exact hrest a

/-- A success on one side is one on the other. -/
theorem ok {x : EStateM ε σ α} {y : EStateM ε τ α} (h : Respects R x y) {s s' : σ} {t : τ} {a : α}
    (hst : R s t) (hx : x s = .ok a s') : ∃ t', y t = .ok a t' ∧ R s' t' := by
  have hends := h s t hst
  rw [hx] at hends
  generalize y t = q at hends
  cases hends with
  | ok hQ => exact ⟨_, congrArg (EStateM.Result.ok · _) hQ.1.symm, hQ.2⟩

end Respects
end ProcTree
