/-
  File:      RagRat/Lib/Buckets.lean
  Subject:   A map from keys to lists, filled one entry at a time: what each bucket holds in the end.

  * `push`, `group` -- append to the bucket of a key, opening it where it is missing;
  * **`get_group`** -- a bucket holds the values given under its key, in the order they came;
  * `mem_group` -- the buckets there are, walked in key order, are those of the keys given.
-/
import Mathlib.Order.Lattice
import Mathlib.Data.List.Basic

namespace RagRat.Lib.Buckets

open List

variable {κ α : Type} [LinearOrder κ] {m : List (κ × List α)} {k : κ} {b : κ × List α} {as : List α}

/-- Append `a` to the bucket of `k`, the buckets kept in key order. -/
def push : List (κ × List α) → κ → α → List (κ × List α)
  | [], k, a => [(k, [a])]
  | (k', as) :: m, k, a =>
    if k < k' then (k, [a]) :: (k', as) :: m
    else if k' < k then (k', as) :: push m k a
    else (k', as ++ [a]) :: m

/-- Every value into the bucket of its key. -/
def group (l : List (κ × α)) : List (κ × List α) := l.foldl (fun m e => push m e.1 e.2) []

/-- The bucket of `k`, empty where there is none. -/
def get : List (κ × List α) → κ → List α
  | [], _ => []
  | (k', as) :: m, k => if k' = k then as else get m k

/-- The values given under `k`. -/
def valuesAt (l : List (κ × α)) (k : κ) : List α := (l.filter fun e => e.1 = k).map (·.2)

/-- Buckets in key order, none of them empty. -/
structure Filled (m : List (κ × List α)) : Prop where
  ascending : m.Pairwise fun b c => b.1 < c.1
  nonempty : ∀ b ∈ m, b.2 ≠ []

theorem Filled.tail (h : Filled (b :: m)) : Filled m :=
  ⟨(pairwise_cons.mp h.ascending).2, (forall_mem_cons.mp h.nonempty).2⟩

theorem get_eq_nil (h : ∀ b ∈ m, b.1 ≠ k) : get m k = [] := by
  induction m with
  | nil => rfl
  | cons b m ih =>
    rw [get, if_neg (h b mem_cons_self), ih (forall_mem_cons.mp h).2]

theorem Filled.mem_iff (h : Filled m) : (k, as) ∈ m ↔ as ≠ [] ∧ get m k = as := by
  induction m with
  | nil => simp [get, eq_comm]
  | cons b m ih =>
    obtain ⟨hb, -⟩ := pairwise_cons.mp h.ascending
    by_cases hk : b.1 = k
    · have hnot : (k, as) ∉ m := fun hmem => (hb (k, as) hmem).ne hk
      rw [mem_cons, get, if_pos hk, or_iff_left hnot]
      constructor
      · rintro rfl
        exact ⟨h.nonempty _ mem_cons_self, rfl⟩
      · rintro ⟨-, rfl⟩
        exact Prod.ext hk.symm rfl
    · have hne : (k, as) ≠ b := by
        rintro rfl
        exact hk rfl
      rw [mem_cons, get, if_neg hk, or_iff_right hne, ih h.tail]

theorem mem_push {a : α} (hb : b ∈ push m k a) : b ∈ m ∨ b.1 = k ∧ b.2 ≠ [] := by
  induction m with
  | nil =>
    rw [mem_singleton.mp hb]
    exact .inr ⟨rfl, cons_ne_nil a []⟩
  | cons c m ih =>
    unfold push at hb
    split at hb
    · rcases mem_cons.mp hb with rfl | hb
      · exact .inr ⟨rfl, cons_ne_nil a []⟩
      · exact .inl hb
    split at hb
    · rcases mem_cons.mp hb with rfl | hb
      · exact .inl mem_cons_self
      · exact (ih hb).imp_left (mem_cons_of_mem c)
    · rcases mem_cons.mp hb with rfl | hb
      · exact .inr ⟨le_antisymm (not_lt.mp ‹_›) (not_lt.mp ‹_›), by simp⟩
      · exact .inl (mem_cons_of_mem c hb)

theorem Filled.push (h : Filled m) (k : κ) (a : α) : Filled (push m k a) := by
  refine ⟨?_, fun b hb => (mem_push hb).elim (h.nonempty b) And.right⟩
  induction m with
  | nil => exact pairwise_singleton _ _
  | cons c m ih =>
    obtain ⟨hc, hm⟩ := pairwise_cons.mp h.ascending
    unfold Buckets.push
    split
    · refine pairwise_cons.mpr ⟨fun b hb => ?_, h.ascending⟩
      rcases mem_cons.mp hb with rfl | hb
      · assumption
      · exact lt_trans ‹_› (hc b hb)
    · split
      · refine pairwise_cons.mpr ⟨fun b hb => ?_, ih h.tail⟩
        rcases mem_push hb with hb | ⟨hb, -⟩
        · exact hc b hb
        · exact hb ▸ ‹_›
      · exact pairwise_cons.mpr ⟨hc, hm⟩

theorem get_push (h : Filled m) (k : κ) (a : α) (k' : κ) :
    get (push m k a) k' = if k = k' then get m k' ++ [a] else get m k' := by
  induction m with
  | nil => simp [push, get]
  | cons c m ih =>
    obtain ⟨hc, -⟩ := pairwise_cons.mp h.ascending
    unfold push
    split
    · -- the new bucket stands before every other, so there was none of its key
      have hnone : get (c :: m) k = [] := by
        refine get_eq_nil fun b hb => ?_
        rcases mem_cons.mp hb with rfl | hb
        · exact (ne_of_lt ‹_›).symm
        · exact (ne_of_lt (lt_trans ‹_› (hc b hb))).symm
      by_cases hk : k = k'
      · rw [get, if_pos hk, if_pos hk, ← hk, hnone, nil_append]
      · rw [get, if_neg hk, if_neg hk]
    · split
      · rw [get, get, ih h.tail]
        by_cases hck : c.1 = k'
        · have hk : k ≠ k' := fun hk => absurd ‹c.1 < k› (by rw [hck, hk]; exact lt_irrefl _)
          rw [if_pos hck, if_pos hck, if_neg hk]
        · rw [if_neg hck, if_neg hck]
      · have hkc : k = c.1 := le_antisymm (not_lt.mp ‹_›) (not_lt.mp ‹_›)
        rw [get, get, hkc]
        split <;> rfl

theorem filled_group (l : List (κ × α)) : Filled (group l) := by
  suffices h : ∀ m, Filled m → Filled (l.foldl (fun m e => push m e.1 e.2) m) from
    h [] ⟨List.Pairwise.nil, nofun⟩
  intro m hm
  induction l generalizing m with
  | nil => exact hm
  | cons e l ih => exact ih _ (hm.push e.1 e.2)

theorem get_group (l : List (κ × α)) (k : κ) : get (group l) k = valuesAt l k := by
  suffices h : ∀ m, Filled m →
      get (l.foldl (fun m e => push m e.1 e.2) m) k = get m k ++ valuesAt l k by
    simpa [get, group] using h [] ⟨List.Pairwise.nil, nofun⟩
  intro m hm
  induction l generalizing m with
  | nil => simp [valuesAt]
  | cons e l ih =>
    rw [foldl_cons, ih _ (hm.push e.1 e.2), get_push hm]
    by_cases hk : e.1 = k
    · simp [valuesAt, hk]
    · simp [valuesAt, hk]

theorem mem_group {l : List (κ × α)} : (k, as) ∈ group l ↔ as ≠ [] ∧ valuesAt l k = as := by
  rw [(filled_group l).mem_iff, get_group]

end RagRat.Lib.Buckets
