/-
  File:      RagRat/Lib/Ascending.lean
  Subject:   Lists that ascend strictly by a key: what stands last, what a lower bound keeps, and the
             fold that picks the highest.

  * `Rises.filter_suffix` -- the elements from a bound on are a suffix of the list;
  * `foldl_highest` -- picking the highest key in one pass is taking the last element;
  * `foldl_best` -- and of any list it is an element of the highest rank.
-/
import Mathlib.Data.List.Basic
import Mathlib.Data.List.Infix
import Mathlib.Order.Lattice

namespace RagRat.Lib.Ascending

open List

variable {α : Type} {key : α → Nat} {l l' : List α} {a z : α}

/-- Strictly ascending by `key`. -/
def Rises (key : α → Nat) (l : List α) : Prop := l.Pairwise fun a b => key a < key b

theorem rises_append_singleton : Rises key (l ++ [a]) ↔ Rises key l ∧ ∀ b ∈ l, key b < key a := by
  simp [Rises, pairwise_append]

theorem Rises.sublist (h : Rises key l) (hs : l'.Sublist l) : Rises key l' :=
  List.Pairwise.sublist hs h

theorem Rises.eq_of_key (h : Rises key l) {b : α} (ha : a ∈ l) (hb : b ∈ l) (heq : key a = key b) :
    a = b := by
  by_contra hne
  rcases List.Pairwise.forall_of_forall_of_flip (R := fun a b => a = b ∨ key a ≠ key b)
    (fun _ _ => .inl rfl) (h.imp fun hlt => .inr (Nat.ne_of_lt hlt))
    (h.imp fun hlt => .inr (Nat.ne_of_gt hlt)) ha hb with h' | h'
  · exact hne h'
  · exact h' heq

theorem Rises.key_le_last (h : Rises key l) (hz : l.getLast? = some z) (ha : a ∈ l) :
    key a ≤ key z := by
  obtain ⟨l, rfl⟩ := getLast?_eq_some_iff.mp hz
  rcases mem_append.mp ha with ha | ha
  · exact ((rises_append_singleton.mp h).2 a ha).le
  · rw [mem_singleton.mp ha]

theorem Rises.filter_suffix (h : Rises key l) (n : Nat) : (l.filter fun a => n ≤ key a) <:+ l := by
  induction l with
  | nil => exact suffix_refl _
  | cons a l ih =>
    obtain ⟨ha, hl⟩ := pairwise_cons.mp h
    by_cases hn : n ≤ key a
    · -- the head is kept, and with it everything after it
      have hall : ∀ b ∈ a :: l, decide (n ≤ key b) = true := by
        intro b hb
        rcases mem_cons.mp hb with rfl | hb
        · exact decide_eq_true hn
        · exact decide_eq_true (hn.trans (ha b hb).le)
      rw [filter_eq_self.mpr hall]
    · rw [filter_cons_of_neg (by simpa using hn)]
      exact (ih hl).trans (suffix_cons a l)

theorem Rises.filter_from {r : List α} (h : Rises key (l ++ z :: r)) :
    (l ++ z :: r).filter (fun a => key z < key a) = r ∧
      (l ++ z :: r).filter (fun a => key z ≤ key a) = z :: r := by
  obtain ⟨-, hr, hlr⟩ := pairwise_append.mp h
  have hafter := (pairwise_cons.mp hr).1
  have hbefore : ∀ a ∈ l, key a < key z := fun a ha => hlr a ha z mem_cons_self
  constructor
  · rw [filter_append, filter_cons_of_neg (by simp),
      filter_eq_nil_iff.mpr fun a ha => by simpa using (hbefore a ha).le,
      filter_eq_self.mpr fun a ha => decide_eq_true (hafter a ha), nil_append]
  · rw [filter_append, filter_cons_of_pos (by simp),
      filter_eq_nil_iff.mpr fun a ha => by simpa using hbefore a ha,
      filter_eq_self.mpr fun a ha => decide_eq_true (hafter a ha).le, nil_append]

theorem Rises.filter_above_take (h : Rises key l) {n : Nat} (hz : (l.take n).getLast? = some z) :
    l.filter (fun a => key z < key a) = l.drop n := by
  obtain ⟨pre, hpre⟩ := getLast?_eq_some_iff.mp hz
  have hsplit : l = pre ++ z :: l.drop n := by
    calc l = l.take n ++ l.drop n := (take_append_drop _ _).symm
      _ = pre ++ z :: l.drop n := by rw [hpre, append_assoc]; rfl
  rw [hsplit] at h
  have hfrom := h.filter_from.1
  rwa [← hsplit] at hfrom

theorem Rises.eq_of_initial (h : Rises key l) (hp : l' <+: l) (ha : l'.getLast? = some a)
    (hz : l.getLast? = some z) (hle : key z ≤ key a) : l' = l := by
  obtain ⟨r, rfl⟩ := hp
  cases r with
  | nil => rw [append_nil]
  | cons b r =>
    exfalso
    have hmem : z ∈ b :: r := by
      rw [getLast?_append_of_ne_nil _ (by simp)] at hz
      exact mem_of_getLast? hz
    have hlt := (pairwise_append.mp h).2.2 a (mem_of_getLast? ha) z hmem
    omega

theorem getLast?_of_suffix (h : l' <:+ l) (hne : l' ≠ []) : l'.getLast? = l.getLast? := by
  obtain ⟨p, rfl⟩ := h
  rw [getLast?_append_of_ne_nil _ hne]

theorem foldl_highest {β : Type} {c : α → β} {k : β → Nat} {pick : Option β → α → Option β}
    (hnone : ∀ a, pick none a = some (c a))
    (hsome : ∀ b a, pick (some b) a = if k b < key a then some (c a) else some b)
    (hk : ∀ a, k (c a) = key a) (h : Rises key l) : l.foldl pick none = l.getLast?.map c := by
  induction l using List.reverseRecOn with
  | nil => rfl
  | append_singleton l a ih =>
    obtain ⟨hl, hlt⟩ := rises_append_singleton.mp h
    rw [foldl_append, ih hl]
    cases hz : l.getLast? with
    | none => simp [hnone]
    | some z =>
      have hlt' : k (c z) < key a := by
        rw [hk]
        exact hlt z (mem_of_getLast? hz)
      simp [hsome, hlt']

theorem foldl_best {ρ : Type} [LinearOrder ρ] (rank : α → ρ) {pick : Option α → α → Option α}
    (hnone : ∀ a, pick none a = some a)
    (hsome : ∀ b a, pick (some b) a = if rank b < rank a then some a else some b) (l : List α) :
    (l = [] ∧ l.foldl pick none = none) ∨
      ∃ f ∈ l, l.foldl pick none = some f ∧ ∀ e ∈ l, rank e ≤ rank f := by
  induction l using List.reverseRecOn with
  | nil => exact .inl ⟨rfl, rfl⟩
  | append_singleton l a ih =>
    refine .inr ?_
    rw [foldl_append]
    rcases ih with ⟨rfl, -⟩ | ⟨f, hf, hfold, hmax⟩
    · exact ⟨a, by simp [hnone]⟩
    rw [hfold, foldl_cons, foldl_nil, hsome]
    split
    · rename_i hlt
      refine ⟨a, by simp, rfl, fun e he => ?_⟩
      rcases mem_append.mp he with he | he
      · exact (hmax e he).trans hlt.le
      · rw [mem_singleton.mp he]
    · rename_i hge
      refine ⟨f, mem_append_left _ hf, rfl, fun e he => ?_⟩
      rcases mem_append.mp he with he | he
      · exact hmax e he
      · exact mem_singleton.mp he ▸ not_lt.mp hge

end RagRat.Lib.Ascending
