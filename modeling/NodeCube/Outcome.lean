/-!
# Outcomes

Much in this library may fail half-way and leaves what it did before. Such an action is an
`EStateM`, and its outcome has a state in either case. Actions on a part of a state become actions
on the whole by `Outcome.within`.
-/

namespace NodeCube

/-- A value or an error, and the state that was left. -/
abbrev Outcome (ε σ α : Type) := EStateM.Result ε σ α

namespace Outcome

variable {ε σ τ α : Type}

/-- The state that was left. -/
def state : Outcome ε σ α → σ
  | .ok _ s => s
  | .error _ s => s

/-- The value or the error. -/
def result : Outcome ε σ α → Except ε α
  | .ok x _ => .ok x
  | .error e _ => .error e

/-- Puts the state that was left into a larger one. -/
def within (put : τ → σ) : Outcome ε τ α → Outcome ε σ α
  | .ok x t => .ok x (put t)
  | .error e t => .error e (put t)

@[simp] theorem within_ok (put : τ → σ) (x : α) (t : τ) :
    within put (.ok x t : Outcome ε τ α) = .ok x (put t) := rfl

@[simp] theorem within_error (put : τ → σ) (e : ε) (t : τ) :
    within put (.error e t : Outcome ε τ α) = .error e (put t) := rfl

@[simp] theorem state_within (put : τ → σ) (o : Outcome ε τ α) :
    state (within put o) = put (state o) := by cases o <;> rfl

@[simp] theorem result_within (put : τ → σ) (o : Outcome ε τ α) :
    result (within put o) = result o := by cases o <;> rfl

theorem ok_of_within {put : τ → σ} {o : Outcome ε τ α} {x : α} {s : σ}
    (h : within put o = .ok x s) : ∃ t, o = .ok x t ∧ s = put t := by
  cases o with
  | ok y t =>
    cases h
    exact ⟨t, rfl, rfl⟩
  | error e t => cases h

variable {β : Type}

theorem ok_congr {x y : α} {s t : σ} (hx : x = y) (hs : s = t) :
    (.ok x s : Outcome ε σ α) = .ok y t := by rw [hx, hs]

theorem bind_ok {a : EStateM ε σ α} {k : α → EStateM ε σ β} {s s' : σ} {x : α}
    (h : a s = .ok x s') : (a >>= k) s = k x s' := by
  change EStateM.bind a k s = k x s'
  unfold EStateM.bind
  rw [h]

theorem bind_error {a : EStateM ε σ α} {k : α → EStateM ε σ β} {s s' : σ} {e : ε}
    (h : a s = .error e s') : (a >>= k) s = .error e s' := by
  change EStateM.bind a k s = .error e s'
  unfold EStateM.bind
  rw [h]

theorem ok_of_bind {a : EStateM ε σ α} {k : α → EStateM ε σ β} {s s' : σ} {y : β}
    (h : (a >>= k) s = .ok y s') : ∃ x s₁, a s = .ok x s₁ ∧ k x s₁ = .ok y s' := by
  cases ha : a s with
  | ok x s₁ => exact ⟨x, s₁, rfl, (bind_ok ha).symm.trans h⟩
  | error e s₁ => cases (bind_error ha).symm.trans h

end Outcome

end NodeCube
