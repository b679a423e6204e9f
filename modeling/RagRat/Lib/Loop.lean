/-
  File:      RagRat/Lib/Loop.lean
  Subject:   LOOPS that leave with a result, over a bound on their turns.

  * `loop turn n s` -- at most `n` turns from `s`; `none` only if the bound runs out.
  * `loop_isSome` -- a measure every turn decreases bounds the turns.
  * `loop_rule` -- what every turn preserves holds of the state the loop leaves from.
  * `loop_ends` -- both at once, for a loop whose turns are known.
  * `loop_never` -- an invariant under which every turn goes on: no bound suffices;
  * `length_filter_lt` -- a measure: what is still to do.
-/
import Mathlib.Data.Sum.Basic

namespace RagRat.Lib.Loop

variable {σ ρ : Type} {turn : σ → σ ⊕ ρ}

/-- A turn goes on with a new state or leaves with a result. -/
def loop (turn : σ → σ ⊕ ρ) : Nat → σ → Option ρ
  | 0, _ => none
  | n + 1, s =>
    match turn s with
    | .inl s' => loop turn n s'
    | .inr r => some r

theorem loop_succ_inl {s s' : σ} (h : turn s = .inl s') (n : Nat) :
    loop turn (n + 1) s = loop turn n s' := by
  rw [loop, h]

theorem loop_succ_inr {s : σ} {r : ρ} (h : turn s = .inr r) (n : Nat) :
    loop turn (n + 1) s = some r := by
  rw [loop, h]

theorem loop_isSome (I : σ → Prop) (μ : σ → Nat)
    (hstep : ∀ s s', I s → turn s = .inl s' → I s' ∧ μ s' < μ s) :
    ∀ {n : Nat} {s : σ}, I s → μ s < n → (loop turn n s).isSome := by
  intro n
  induction n with
  | zero =>
    intro s _ hlt
    omega
  | succ n ih =>
    intro s hs hlt
    cases h : turn s with
    | inl s' =>
      rw [loop_succ_inl h]
      obtain ⟨hs', hdec⟩ := hstep s s' hs h
      exact ih hs' (by omega)
    | inr r =>
      rw [loop_succ_inr h]
      rfl

theorem length_filter_lt {l : List σ} {p q : σ → Bool} {a : σ} (hsub : ∀ x, q x → p x) (ha : a ∈ l)
    (hp : p a) (hq : q a = false) : (l.filter q).length < (l.filter p).length := by
  have hfilter : l.filter q = (l.filter p).filter q := by
    rw [List.filter_filter]
    refine List.filter_congr fun x _ => ?_
    cases hx : q x <;> simp [hsub, hx]
  rw [hfilter, List.length_filter_lt_length_iff_exists]
  exact ⟨a, List.mem_filter.mpr ⟨ha, hp⟩, by simp [hq]⟩

theorem loop_rule (I : σ → Prop) (hstep : ∀ s s', I s → turn s = .inl s' → I s') :
    ∀ {n : Nat} {s : σ} {r : ρ}, I s → loop turn n s = some r → ∃ t, I t ∧ turn t = .inr r := by
  intro n
  induction n with
  | zero =>
    intro s r _ hrun
    cases hrun
  | succ n ih =>
    intro s r hs hrun
    cases h : turn s with
    | inl s' =>
      rw [loop_succ_inl h] at hrun
      exact ih (hstep s s' hs h) hrun
    | inr r' =>
      rw [loop_succ_inr h] at hrun
      cases hrun
      exact ⟨s, hs, h⟩

/-- **A loop each of whose turns leaves, or goes on with less to do**: it leaves from where an invariant of the
    turns holds. -/
theorem loop_ends (I : σ → Prop) (μ : σ → Nat) (leave : σ → ρ)
    (hturn : ∀ s, I s → turn s = .inr (leave s) ∨ ∃ s', turn s = .inl s' ∧ I s' ∧ μ s' < μ s)
    {n : Nat} {s : σ} (hs : I s) (hn : μ s < n) : ∃ t, I t ∧ loop turn n s = some (leave t) := by
  induction n generalizing s with
  | zero => exact absurd hn (Nat.not_lt_zero _)
  | succ n ih =>
    rcases hturn s hs with hout | ⟨s', hgo, hs', hlt⟩
    · exact ⟨s, hs, loop_succ_inr hout n⟩
    · rw [loop_succ_inl hgo]
      exact ih hs' (by omega)

theorem loop_never (I : σ → Prop) (hturn : ∀ s, I s → ∃ s', turn s = .inl s' ∧ I s') (n : Nat) {s : σ}
    (hs : I s) : loop turn n s = none := by
  induction n generalizing s with
  | zero => rfl
  | succ n ih =>
    obtain ⟨s', hgo, hs'⟩ := hturn s hs
    rw [loop_succ_inl hgo]
    exact ih hs'

end RagRat.Lib.Loop
