/-
  File:      RagRat/Lib/Climb.lean
  Subject:   Climbing from rung to rung, each at most `step` above the last: a pass over the rungs in
             ascending order ends at the highest rung that can be reached at all.

  * `climb` -- the pass, with the height reached so far;
  * `Reached` -- the heights some sequence of steps reaches, in any order of the rungs;
  * **`isGreatest_climb`** -- over ascending rungs the pass ends at the greatest of them.
-/
import Mathlib.Order.Bounds.Basic
import Mathlib.Data.List.Basic
import Mathlib.Tactic.Ring

namespace RagRat.Lib.Climb

variable {l top height step start : Nat} {rung rung' : Nat → Prop} {rungs : List Nat}

/-- One rung: taken if it is within reach. -/
def rise (step height rung : Nat) : Nat := if rung ≤ height + step then max height rung else height

/-- The pass over the rungs. -/
def climb (step start : Nat) (rungs : List Nat) : Nat := rungs.foldl (rise step) start

/-- A height that steps of at most `step` lead to, from `start` over the rungs. -/
inductive Reached (step : Nat) (rung : Nat → Prop) (start : Nat) : Nat → Prop where
  | start : Reached step rung start start
  | up {height l : Nat} : Reached step rung start height → rung l → l ≤ height + step →
      Reached step rung start l

theorem Reached.imp (h : Reached step rung start l)
    (htop : ∀ l, Reached step rung start l → l ≤ top) (hr : ∀ l, rung l → l ≤ top → rung' l) :
    Reached step rung' start l := by
  induction h with
  | start => exact .start
  | up hh hl hle ih => exact .up ih (hr _ hl (htop _ (.up hh hl hle))) hle

theorem Reached.mono (hr : ∀ l, rung l → rung' l) (h : Reached step rung start l) :
    Reached step rung' start l := by
  induction h with
  | start => exact .start
  | up _ hl hle ih => exact .up ih (hr _ hl) hle

theorem le_rise (height l : Nat) : height ≤ rise step height l := by
  unfold rise
  split <;> omega

theorem le_climb (start : Nat) (rungs : List Nat) : start ≤ climb step start rungs := by
  induction rungs generalizing start with
  | nil => exact le_refl _
  | cons l rungs ih => exact (le_rise start l).trans (ih (rise step start l))

theorem climb_of_far (h : ∀ l ∈ rungs, start + step < l) : climb step start rungs = start := by
  induction rungs with
  | nil => rfl
  | cons l rungs ih =>
    have hl : rise step start l = start := if_neg (by have := h l List.mem_cons_self; omega)
    show climb step (rise step start l) rungs = start
    rw [hl]
    exact ih fun l' hl' => h l' (List.mem_cons_of_mem _ hl')

theorem reached_climb (h : Reached step rung start height) (hr : ∀ l ∈ rungs, rung l) :
    Reached step rung start (climb step height rungs) := by
  induction rungs generalizing height with
  | nil => exact h
  | cons l rungs ih =>
    refine ih ?_ fun l' hl' => hr l' (List.mem_cons_of_mem _ hl')
    unfold rise
    split
    · next hle =>
      rcases max_choice height l with hm | hm
      · rwa [hm]
      · rw [hm]
        exact h.up (hr l List.mem_cons_self) hle
    · exact h

theorem le_climb_of_mem (hs : rungs.Pairwise (· ≤ ·)) (hl : l ∈ rungs)
    (hle : l ≤ climb step start rungs + step) : l ≤ climb step start rungs := by
  induction rungs generalizing start with
  | nil => exact absurd hl List.not_mem_nil
  | cons x rungs ih =>
    obtain ⟨hx, hs⟩ := List.pairwise_cons.mp hs
    by_cases hreach : x ≤ start + step
    · rcases List.mem_cons.mp hl with rfl | hl
      · -- the head itself was taken
        have htaken : l ≤ rise step start l := by
          unfold rise
          rw [if_pos hreach]
          exact le_max_right _ _
        exact htaken.trans (le_climb _ rungs)
      · exact ih hs hl hle
    · -- the head is out of reach, and so is everything after it
      have hfar : ∀ l ∈ x :: rungs, start + step < l := by
        intro l hl
        rcases List.mem_cons.mp hl with rfl | hl
        · omega
        · have := hx l hl
          omega
      rw [climb_of_far hfar] at hle
      have := hfar l hl
      omega

theorem isGreatest_climb (hs : rungs.Pairwise (· ≤ ·)) :
    IsGreatest {l | Reached step (· ∈ rungs) start l} (climb step start rungs) := by
  refine ⟨reached_climb .start fun _ h => h, fun l hl => ?_⟩
  -- no rung within reach exceeds the end of the pass
  induction hl with
  | start => exact le_climb start rungs
  | up _ hl hle ih => exact le_climb_of_mem hs hl (hle.trans (Nat.add_le_add_right ih step))

theorem climb_le (start : Nat) (rungs : List Nat) :
    climb step start rungs ≤ start + rungs.length * step := by
  induction rungs generalizing start with
  | nil => exact Nat.le_add_right _ _
  | cons l rungs ih =>
    have hone : rise step start l ≤ start + step := by
      unfold rise
      split <;> omega
    calc climb step (rise step start l) rungs
        ≤ rise step start l + rungs.length * step := ih _
      _ ≤ start + step + rungs.length * step := Nat.add_le_add_right hone _
      _ = start + (rungs.length + 1) * step := by ring

end RagRat.Lib.Climb
