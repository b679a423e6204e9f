/-
  File:      RagRat/Lib/Table.lean
  Subject:   A table with a primary key, written by insertions that skip a key already taken.

  * `insertOrIgnore` -- the insertion of a batch;
  * `mem_insertOrIgnore` -- with rows fixed by their keys the table holds the old rows and the batch;
  * `nodup_insertOrIgnore` -- keys stay distinct, so rows can be counted.
-/
import Mathlib.Data.List.Basic
import Mathlib.Data.List.Nodup

namespace RagRat.Lib.Table

open List

variable {α κ : Type} [DecidableEq κ] {key : α → κ} {rows batch : List α} {r : α}

/-- Insert a row unless its key is taken. -/
def insertRow (key : α → κ) (rows : List α) (row : α) : List α :=
  if rows.any fun r => key r = key row then rows else rows ++ [row]

/-- Insert the rows of a batch, in order. -/
def insertOrIgnore (key : α → κ) (rows batch : List α) : List α := batch.foldl (insertRow key) rows

theorem insertOrIgnore_append (rows batch batch' : List α) :
    insertOrIgnore key rows (batch ++ batch') =
      insertOrIgnore key (insertOrIgnore key rows batch) batch' :=
  foldl_append

theorem mem_of_mem_insertOrIgnore (h : r ∈ insertOrIgnore key rows batch) : r ∈ rows ∨ r ∈ batch := by
  induction batch generalizing rows with
  | nil => exact .inl h
  | cons b batch ih =>
    rcases ih h with h | h
    · unfold insertRow at h
      split at h
      · exact .inl h
      · rcases mem_append.mp h with h | h
        · exact .inl h
        · exact .inr (mem_cons.mpr (.inl (mem_singleton.mp h)))
    · exact .inr (mem_cons_of_mem b h)

theorem exists_key_insertOrIgnore (key : α → κ) (rows : List α) (h : r ∈ rows ∨ r ∈ batch) :
    ∃ s ∈ insertOrIgnore key rows batch, key s = key r := by
  induction batch generalizing rows r with
  | nil => exact ⟨r, h.resolve_right not_mem_nil, rfl⟩
  | cons b batch ih =>
    have hrow : ∃ s ∈ insertRow key rows b, key s = key b := by
      unfold insertRow
      split
      next htaken =>
        obtain ⟨s, hs, hkey⟩ := any_eq_true.mp htaken
        exact ⟨s, hs, of_decide_eq_true hkey⟩
      next => exact ⟨b, by simp, rfl⟩
    rcases h with h | h
    · refine ih _ (.inl ?_)
      unfold insertRow
      split
      · exact h
      · exact mem_append_left _ h
    · rcases mem_cons.mp h with rfl | h
      · obtain ⟨s, hs, hkey⟩ := hrow
        obtain ⟨t, ht, hkey'⟩ := ih _ (.inl hs)
        exact ⟨t, ht, hkey'.trans hkey⟩
      · exact ih _ (.inr h)

theorem length_le_insertOrIgnore (key : α → κ) (rows batch : List α) :
    rows.length ≤ (insertOrIgnore key rows batch).length := by
  induction batch generalizing rows with
  | nil => exact Nat.le_refl _
  | cons b batch ih =>
    refine Nat.le_trans ?_ (ih (insertRow key rows b))
    unfold insertRow
    split
    · exact Nat.le_refl _
    · rw [length_append]
      exact Nat.le_add_right _ _

/-- Among `rows` a key belongs to one row. -/
def FixedByKey (key : α → κ) (rows : List α) : Prop :=
  ∀ r ∈ rows, ∀ s ∈ rows, key r = key s → r = s

theorem mem_insertOrIgnore (hfixed : FixedByKey key (rows ++ batch)) :
    r ∈ insertOrIgnore key rows batch ↔ r ∈ rows ∨ r ∈ batch := by
  refine ⟨mem_of_mem_insertOrIgnore, fun h => ?_⟩
  obtain ⟨s, hs, hkey⟩ := exists_key_insertOrIgnore key rows h
  have hs' := mem_of_mem_insertOrIgnore hs
  rwa [← hfixed s (mem_append.mpr hs') r (mem_append.mpr h) hkey]

theorem nodup_insertOrIgnore (h : (rows.map key).Nodup) (batch : List α) :
    ((insertOrIgnore key rows batch).map key).Nodup := by
  induction batch generalizing rows with
  | nil => exact h
  | cons b batch ih =>
    refine ih ?_
    unfold insertRow
    split
    next => exact h
    next hfree =>
      rw [map_append, map_singleton, nodup_append]
      refine ⟨h, nodup_singleton _, fun k hk k' hk' => ?_⟩
      obtain ⟨r, hr, rfl⟩ := mem_map.mp hk
      rw [mem_singleton.mp hk']
      intro heq
      exact hfree (any_eq_true.mpr ⟨r, hr, decide_eq_true heq⟩)

end RagRat.Lib.Table
