/-
  File:      RagRat/Lib/Budget.lean
  Subject:   THE GREATEST k OF A FINITE SET by a rank, on one level and on two.

  * `greatest k s` -- the elements with fewer than `k` above them;
  * `within f p g s` -- the `g` greatest of what every class of `f` has among its `p` greatest;
  * `within_union` -- taking the greatest early loses nothing: what is left out stays out, whatever comes.
-/
import Mathlib.Algebra.Order.BigOperators.Group.Finset
import Mathlib.Data.Finset.Max

namespace RagRat.Lib.Budget

open Finset

variable {α κ β : Type} [LinearOrder κ] [DecidableEq β] (rank : α → κ) (f : α → β)

/-- What ranks above. -/
def above (s : Finset α) (a : α) : Finset α := s.filter fun x => rank a < rank x

/-- The `k` of highest rank. -/
def greatest (k : Nat) (s : Finset α) : Finset α := s.filter fun a => (above rank s a).card < k

/-- The elements of a class. -/
def classOf (s : Finset α) (b : β) : Finset α := s.filter fun a => f a = b

/-- The `p` greatest of every class. -/
def perClass [DecidableEq α] (p : Nat) (s : Finset α) : Finset α :=
  (s.image f).biUnion fun b => greatest rank p (classOf f s b)

/-- What the budget of a class and then that of all keep. -/
def within [DecidableEq α] (p g : Nat) (s : Finset α) : Finset α := greatest rank g (perClass rank f p s)

section One

variable {rank} {s t : Finset α} {a x : α} {k : Nat}

theorem mem_above : x ∈ above rank s a ↔ x ∈ s ∧ rank a < rank x := mem_filter

theorem mem_greatest : a ∈ greatest rank k s ↔ a ∈ s ∧ (above rank s a).card < k := mem_filter

theorem above_mono (h : s ⊆ t) : above rank s a ⊆ above rank t a := filter_subset_filter _ h

section

variable [DecidableEq α]

theorem greatest_insert (h : ∀ x ∈ s, rank a < rank x) :
    greatest rank k (insert a s) = if s.card < k then insert a s else greatest rank k s := by
  have hself : above rank (insert a s) a = s := by
    rw [above, filter_insert, if_neg (lt_irrefl _), filter_true_of_mem h]
  have hother : ∀ x ∈ s, above rank (insert a s) x = above rank s x := fun x hx => by
    rw [above, filter_insert, if_neg (h x hx).not_gt, above]
  rw [greatest, filter_insert, hself, filter_congr fun x hx => by rw [hother x hx], ← greatest]
  split_ifs with hk
  · exact congrArg (insert a) (filter_true_of_mem fun x _ => (card_filter_le _ _).trans_lt hk)
  · rfl

theorem card_greatest (hinj : Set.InjOn rank s) : (greatest rank k s).card = min k s.card := by
  induction s using induction_on_min_value rank with
  | empty => simp [greatest]
  | insert a s hnew hmin ih =>
    rw [coe_insert] at hinj
    have hlt : ∀ x ∈ s, rank a < rank x := fun x hx => lt_of_le_of_ne (hmin x hx) fun he =>
      hnew (hinj (.inl rfl) (.inr hx) he ▸ hx)
    rw [greatest_insert hlt, apply_ite card, ih (hinj.mono (Set.subset_insert _ _)),
      card_insert_of_notMem hnew]
    split_ifs <;> omega

theorem mem_take_iff {l : List α} (hl : l.Pairwise fun a b => rank a < rank b) :
    a ∈ l.take (l.length - k) ↔ a ∈ l ∧ a ∉ greatest rank k l.toFinset := by
  induction l with
  | nil => simp
  | cons x l ih =>
    obtain ⟨hx, hl⟩ := List.pairwise_cons.mp hl
    have hcard : l.toFinset.card = l.length :=
      List.toFinset_card_of_nodup (hl.imp fun h e => h.ne (congrArg rank e))
    have hnew : x ∉ greatest rank k l.toFinset := fun h =>
      (hx x (List.mem_toFinset.mp (mem_greatest.mp h).1)).false
    rw [List.toFinset_cons, greatest_insert fun y hy => hx y (List.mem_toFinset.mp hy), hcard,
      List.length_cons]
    split_ifs with hk
    · rw [Nat.sub_eq_zero_of_le hk, ← List.toFinset_cons, List.mem_toFinset]
      exact iff_of_false List.not_mem_nil fun h => h.2 h.1
    · rw [Nat.succ_sub (not_lt.mp hk), List.take_succ_cons, List.mem_cons, ih hl, List.mem_cons,
        or_and_left]
      exact and_congr_right fun _ => or_iff_right_of_imp fun h => h ▸ hnew

end

end One

section Two

variable {rank f} {s t : Finset α} {a : α} {p g : Nat}

theorem classOf_subset (b : β) : classOf f s b ⊆ s := filter_subset _ _

variable [DecidableEq α]

theorem mem_perClass : a ∈ perClass rank f p s ↔ a ∈ s ∧ (above rank (classOf f s (f a)) a).card < p := by
  simp only [perClass, mem_biUnion, mem_image, mem_greatest, classOf, mem_filter]
  constructor
  · rintro ⟨b, -, ⟨ha, rfl⟩, hp⟩
    exact ⟨ha, hp⟩
  · rintro ⟨ha, hp⟩
    exact ⟨f a, ⟨a, ha, rfl⟩, ⟨ha, rfl⟩, hp⟩

theorem above_perClass : above rank (perClass rank f p s) a = perClass rank f p (above rank s a) := by
  ext x
  simp only [mem_above, mem_perClass, and_right_comm (c := rank a < rank x)]
  refine and_congr_right fun hx => ?_
  have hsame : above rank (classOf f (above rank s a) (f x)) x = above rank (classOf f s (f x)) x := by
    ext y
    simp only [mem_above, classOf, mem_filter]
    exact and_congr_left fun hy => and_congr_left fun _ => and_iff_left (hx.2.trans hy)
  rw [hsame]

theorem card_perClass_mono (hinj : Set.InjOn rank t) (h : s ⊆ t) :
    (perClass rank f p s).card ≤ (perClass rank f p t).card := by
  have hcard : ∀ u ⊆ t, (perClass rank f p u).card = ∑ b ∈ u.image f, min p (classOf f u b).card := by
    intro u hu
    rw [perClass, card_biUnion]
    · exact sum_congr rfl fun b _ =>
        card_greatest (hinj.mono (coe_subset.mpr ((classOf_subset b).trans hu)))
    · intro b _ c _ hbc
      refine disjoint_left.mpr fun x hb hc => hbc ?_
      rw [← (mem_filter.mp (mem_greatest.mp hb).1).2, (mem_filter.mp (mem_greatest.mp hc).1).2]
  rw [hcard s h, hcard t subset_rfl]
  exact (sum_le_sum fun b _ => min_le_min_left _ (card_le_card (filter_subset_filter _ h))).trans
    (sum_le_sum_of_subset (image_subset_image h))

theorem within_subset : within rank f p g s ⊆ s := fun _ ha => (mem_perClass.mp (mem_greatest.mp ha).1).1

theorem within_of_subset (hinj : Set.InjOn rank t) (h : s ⊆ t) (ha : a ∈ within rank f p g t)
    (has : a ∈ s) : a ∈ within rank f p g s := by
  obtain ⟨hclass, hg⟩ := mem_greatest.mp ha
  rw [above_perClass] at hg
  refine mem_greatest.mpr ⟨mem_perClass.mpr ⟨has, ?_⟩, ?_⟩
  · exact (card_le_card (above_mono (filter_subset_filter _ h))).trans_lt (mem_perClass.mp hclass).2
  · rw [above_perClass]
    exact (card_perClass_mono (hinj.mono (filter_subset _ _)) (above_mono h)).trans_lt hg

theorem within_eq_of_subset (hinj : Set.InjOn rank t) (h : s ⊆ t) (hsub : within rank f p g t ⊆ s) :
    within rank f p g s = within rank f p g t := by
  have hkeep : within rank f p g t ⊆ within rank f p g s :=
    fun x hx => within_of_subset hinj h hx (hsub hx)
  have hcard : ∀ u ⊆ t, (within rank f p g u).card = min g (perClass rank f p u).card :=
    fun u hu => card_greatest (hinj.mono fun x hx => hu (mem_perClass.mp hx).1)
  refine (eq_of_subset_of_card_le hkeep ?_).symm
  rw [hcard s h, hcard t subset_rfl]
  exact min_le_min_left _ (card_perClass_mono hinj h)

theorem within_union (hinj : Set.InjOn rank ↑(s ∪ t)) :
    within rank f p g (within rank f p g s ∪ t) = within rank f p g (s ∪ t) := by
  refine within_eq_of_subset hinj (union_subset_union_left within_subset) fun x hx => ?_
  rcases mem_union.mp (within_subset hx) with hs | ht
  · exact mem_union_left _ (within_of_subset hinj subset_union_left hx hs)
  · exact mem_union_right _ ht

end Two

end RagRat.Lib.Budget
