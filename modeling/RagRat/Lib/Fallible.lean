/-
  File:      RagRat/Lib/Fallible.lean
  Subject:   RUNS THAT MAY FAIL. A computation over a state which returns, fails with an error, or runs
             out of the bound its loops were given; and what is known of a run that did return.

  * `Run` -- the computations;
  * `Returns` -- one run, from the state it starts in to what it returns and the state it leaves;
  * `returns_bind`, `returns_pure`, `returns_ite` -- a run that returned, taken apart at its first
    instruction.
-/
import Mathlib.Control.Lawful

namespace RagRat.Lib.Fallible

variable {ε σ α β : Type}

/-- A computation on a state `σ` that may fail with an `ε`, or run out of its bound. -/
abbrev Run (ε σ α : Type) : Type := StateT σ (ExceptT ε Option) α

/-- The bound ran out. -/
def outOfBound : Run ε σ α := fun _ => none

/-- The run of `x` from `s` returns `a` and leaves `s'`. -/
def Returns (x : Run ε σ α) (s : σ) (a : α) (s' : σ) : Prop := x s = some (.ok (a, s'))

section Rules

variable {x y : Run ε σ α} {f : α → Run ε σ β} {s s' s₁ : σ} {a a' : α} {b : β} {c : Prop} {e : ε}

theorem Returns.unique {s₂ : σ} (h : Returns x s a s₁) (h' : Returns x s a' s₂) : a = a' ∧ s₁ = s₂ := by
  cases Option.some.inj (h.symm.trans h')
  exact ⟨rfl, rfl⟩

theorem returns_bind :
    Returns (x >>= f) s b s' ↔ ∃ a s₁, Returns x s a s₁ ∧ Returns (f a) s₁ b s' := by
  have hrun : (x >>= f) s = Option.bind (x s) fun r =>
      match r with
      | .ok p => f p.1 p.2
      | .error e => some (.error e) := by
    show ExceptT.bind (x s) (fun p => f p.1 p.2) = _
    unfold ExceptT.bind ExceptT.mk
    show Option.bind (x s) _ = _
    congr 1
    funext r
    cases r <;> rfl
  unfold Returns
  rw [hrun, Option.bind_eq_some_iff]
  constructor
  · intro ⟨r, hx, hr⟩
    cases r with
    | error e => cases hr
    | ok p => exact ⟨p.1, p.2, hx, hr⟩
  · intro ⟨a, s₁, hx, hf⟩
    exact ⟨.ok (a, s₁), hx, hf⟩

/-- What can be seen of a run that returns. -/
def seen (x : Run ε σ α) (s : σ) (view : α → σ → β) : Option β :=
  match x s with
  | some (.ok r) => some (view r.1 r.2)
  | _ => none

theorem returns_of_seen {v : β} {view : α → σ → β} (h : seen x s view = some v) :
    ∃ a s', Returns x s a s' ∧ view a s' = v := by
  unfold seen at h
  split at h
  · rename_i r hx
    cases h
    exact ⟨r.1, r.2, hx, rfl⟩
  · cases h

/-- The error a run fails with. -/
def failure? (x : Run ε σ α) (s : σ) : Option ε :=
  match x s with
  | some (.error e) => some e
  | _ => none

theorem eq_error_of_failure (h : failure? x s = some e) : x s = some (.error e) := by
  unfold failure? at h
  split at h
  · rename_i hx
    cases h
    exact hx
  · cases h

theorem returns_pure : Returns (pure a : Run ε σ α) s a' s' ↔ a = a' ∧ s = s' := by
  unfold Returns
  constructor
  · intro h
    cases h
    exact ⟨rfl, rfl⟩
  · intro ⟨ha, hs⟩
    rw [ha, hs]
    rfl

theorem returns_get : Returns (get : Run ε σ σ) s s₁ s' ↔ s = s₁ ∧ s = s' := by
  unfold Returns
  constructor
  · intro h
    cases h
    exact ⟨rfl, rfl⟩
  · intro ⟨h, h'⟩
    subst h h'
    rfl

theorem returns_set {u : PUnit} : Returns (set s₁ : Run ε σ PUnit) s u s' ↔ s₁ = s' := by
  unfold Returns
  constructor
  · intro h
    cases h
    rfl
  · intro h
    subst h
    rfl

theorem not_returns_throw : ¬ Returns (throw e : Run ε σ α) s a s' := nofun

theorem not_returns_outOfBound : ¬ Returns (outOfBound : Run ε σ α) s a s' := nofun

theorem returns_ite [Decidable c] :
    Returns (if c then x else y) s a s' ↔ (c ∧ Returns x s a s') ∨ (¬ c ∧ Returns y s a s') := by
  by_cases hc : c
  · simp [hc]
  · simp [hc]

theorem returns_guard [Decidable c] :
    Returns (if c then throw e else x) s a s' ↔ ¬ c ∧ Returns x s a s' := by
  rw [returns_ite, or_iff_right fun h => not_returns_throw h.2]

end Rules

end RagRat.Lib.Fallible
