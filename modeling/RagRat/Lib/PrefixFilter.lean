/-
  File:      RagRat/Lib/PrefixFilter.lean
  Subject:   Prefix filtering of multisets: two multisets that share `k` elements, counted with
             multiplicity, already share one near the front of both, whatever total order the
             elements are ranked by.

  * `preceding` -- how many occurrences of a multiset rank before an element;
  * `preceding_add_card_le` -- what is shared from the least shared element on leaves the rest of
    the multiset little room before it;
  * **`exists_shared_in_front`** -- a shared element that lies in the first `p` occurrences of the
    one and in the first `q` of the other, as soon as `p` and `q` reach past what is not shared.
-/
import Mathlib.Data.Multiset.UnionInter
import Mathlib.Data.Multiset.Filter
import Mathlib.Data.Finset.Max
import Mathlib.Data.Multiset.Dedup

namespace RagRat.Lib.PrefixFilter

open Multiset

variable {α κ : Type} [LinearOrder κ] (rank : α → κ)

/-- The occurrences of `m` that rank strictly before `w`. -/
def preceding (m : Multiset α) (w : α) : Nat := (m.filter fun a => rank a < rank w).card

variable {rank}

theorem preceding_add_card_le {m s : Multiset α} {w : α} (hs : s ≤ m)
    (hfrom : ∀ a ∈ s, rank w ≤ rank a) : preceding rank m w + s.card ≤ m.card := by
  have hkept : s ≤ m.filter fun a => ¬ rank a < rank w :=
    le_filter.mpr ⟨hs, fun a ha => not_lt.mpr (hfrom a ha)⟩
  calc preceding rank m w + s.card
      ≤ (m.filter fun a => rank a < rank w).card + (m.filter fun a => ¬ rank a < rank w).card :=
        Nat.add_le_add_left (card_le_card hkept) _
    _ = m.card := by rw [← card_add, filter_add_not]

/-- **Two multisets that share `k` occurrences share an element in front.** The least shared
element serves: everything shared ranks from it on, so in either multiset only what is not shared
can stand before it. -/
theorem exists_shared_in_front [DecidableEq α] (rank : α → κ) {a b : Multiset α} {k p q : Nat} (hk : 0 < k)
    (hshared : k ≤ (a ∩ b).card) (hp : a.card < k + p) (hq : b.card < k + q) :
    ∃ w, w ∈ a ∧ w ∈ b ∧ preceding rank a w < p ∧ preceding rank b w < q := by
  have hne : (a ∩ b).toFinset.Nonempty := by
    obtain ⟨w, hw⟩ := card_pos_iff_exists_mem.mp (hk.trans_le hshared)
    exact ⟨w, mem_toFinset.mpr hw⟩
  obtain ⟨w, hw, hleast⟩ := Finset.exists_min_image _ rank hne
  have hfrom : ∀ x ∈ a ∩ b, rank w ≤ rank x := fun x hx => hleast x (mem_toFinset.mpr hx)
  obtain ⟨hwa, hwb⟩ := mem_inter.mp (mem_toFinset.mp hw)
  have ha := preceding_add_card_le inter_le_left hfrom
  have hb := preceding_add_card_le inter_le_right hfrom
  exact ⟨w, hwa, hwb, by omega, by omega⟩

end RagRat.Lib.PrefixFilter
