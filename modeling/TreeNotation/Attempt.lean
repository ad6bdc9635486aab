import TreeNotation.Error

/-!
# Attempts

An attempt reads and writes a state and may fail on its way. What it has written by then stays
written: that a failure leaves everything as it was is a property of some attempts.

- `Attempt.outcome` is the answer of an attempt, `Attempt.after` the state that it leaves;
- `Attempt.onPart` makes an attempt on a part of a state one on the whole;
- `Attempt.Clean` says that a failure leaves the state as it was.
-/

namespace TreeNotation

/-- Something that may fail and that reads and writes a state either way. -/
abbrev Attempt (σ : Type) := EStateM Error σ

namespace Attempt

variable {σ τ β γ : Type}

/-- The answer of an attempt with the state after it, or the error alone. -/
def outcome (x : Attempt σ β) (state : σ) : Except Error (β × σ) :=
  match x state with
  | .ok b after => .ok (b, after)
  | .error e _ => .error e

/-- The state after an attempt, whether it has failed or not. -/
def after (x : Attempt σ β) (state : σ) : σ :=
  match x state with
  | .ok _ after => after
  | .error _ after => after

/-- An attempt on the part of a state that `part` reads. What it leaves of the part is put back by
`put`, also if it fails. -/
def onPart (part : σ → τ) (put : σ → τ → σ) (x : Attempt τ β) : Attempt σ β := fun state =>
  match x (part state) with
  | .ok b after => .ok b (put state after)
  | .error e after => .error e (put state after)

theorem get_bind (f : σ → Attempt σ β) (state : σ) : (get >>= f) state = f state state := rfl

/-! ## Failures that change nothing -/

/-- A failure leaves the state as it was. -/
def Clean (x : Attempt σ β) : Prop := ∀ state e after, x state = .error e after → after = state

theorem Clean.after_eq {x : Attempt σ β} (hx : x.Clean) (state : σ) :
    x.after state =
      match x.outcome state with
      | .ok (_, after) => after
      | .error _ => state := by
  unfold after outcome
  cases hrun : x state with
  | ok b after => rfl
  | error e after => exact hx state e after hrun

/-- What follows an attempt may write if it does not fail any more. -/
theorem Clean.bind {x : Attempt σ β} {f : β → Attempt σ γ} (hx : x.Clean)
    (hf : ∀ b state, ∃ c after, f b state = .ok c after) : (x >>= f).Clean := by
  intro state e after h
  simp only [Bind.bind, EStateM.bind] at h
  cases hrun : x state with
  | ok b mid =>
    obtain ⟨c, last, hlast⟩ := hf b mid
    rw [hrun] at h
    simp only [hlast] at h
    cases h
  | error e' mid =>
    rw [hrun] at h
    cases h
    exact hx _ _ _ hrun

theorem Clean.onPart {x : Attempt τ β} (hx : x.Clean) {part : σ → τ} {put : σ → τ → σ}
    (hput : ∀ state, put state (part state) = state) : (x.onPart part put).Clean := by
  intro state e after h
  unfold Attempt.onPart at h
  cases hrun : x (part state) with
  | ok b mid => rw [hrun] at h; cases h
  | error e' mid =>
    rw [hrun] at h
    cases h
    rw [hx _ _ _ hrun, hput]

end Attempt

end TreeNotation
