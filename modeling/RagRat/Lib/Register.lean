/-
  File:      RagRat/Lib/Register.lean
  Subject:   LAST-WRITER REGISTERS: statements are walked in ascending rank and each one overwrites the
             registers it states.

  * `last sel l` -- what the last statement of `l` that `sel` picks says; `foldl_register` -- a register
    that every picked statement overwrites holds it after the walk.
  * `Greatest rank sel l o` -- what the walk order means: `o` is said by a picked statement of greatest
    rank, or nothing is picked. `greatest_last` -- in ascending order the last one is the greatest.
  * `map_sorted_eq_of_perm` -- the order of the statements is not seen, as long as statements of one rank
    read alike.
-/
import Mathlib.Data.List.Induction
import Mathlib.Data.List.Sort

namespace RagRat.Lib.Register

open List

variable {α β σ κ : Type} {step : σ → α → σ} {s : σ}

/-! ## 1. Overwriting -/

section

variable (sel : α → Option β)

/-- What the last event that speaks says. -/
def last (l : List α) : Option β := (l.filterMap sel).getLast?

@[simp] theorem last_nil : last sel [] = none := rfl

theorem last_append (l : List α) (a : α) : last sel (l ++ [a]) = (sel a).or (last sel l) := by
  unfold last
  cases h : sel a with
  | none => simp [h]
  | some b => simp [h]

theorem last_isSome_iff (l : List α) : (last sel l).isSome ↔ ∃ a ∈ l, (sel a).isSome := by
  induction l using List.reverseRecOn with
  | nil => simp
  | append_singleton l a ih =>
    rw [last_append, Option.isSome_or, Bool.or_eq_true, ih]
    simp only [mem_append, mem_singleton, or_and_right, exists_or, exists_eq_left]
    exact or_comm

end

theorem foldl_register {sel : α → Option β} (reg : σ → β)
    (hstep : ∀ s a, reg (step s a) = (sel a).getD (reg s)) (s : σ) (l : List α) :
    reg (l.foldl step s) = (last sel l).getD (reg s) := by
  induction l using List.reverseRecOn with
  | nil => rfl
  | append_singleton l a ih =>
    rw [foldl_append, foldl_cons, foldl_nil, hstep, ih, last_append]
    cases sel a <;> rfl

theorem foldl_register_option {sel : α → Option β} (reg : σ → Option β)
    (hstep : ∀ s a, reg (step s a) = (sel a).or (reg s)) (hs : reg s = none) (l : List α) :
    reg (l.foldl step s) = last sel l := by
  induction l using List.reverseRecOn with
  | nil => exact hs
  | append_singleton l a ih =>
    rw [foldl_append, foldl_cons, foldl_nil, hstep, ih, last_append]

theorem foldl_flag {p : σ → Prop} {q : α → Prop} (hstep : ∀ s a, p (step s a) ↔ q a ∨ p s)
    (hs : ¬ p s) (l : List α) : p (l.foldl step s) ↔ ∃ a ∈ l, q a := by
  induction l using List.reverseRecOn with
  | nil => simpa using hs
  | append_singleton l a ih =>
    rw [foldl_append, foldl_cons, foldl_nil, hstep, ih]
    simp only [mem_append, mem_singleton, or_and_right, exists_or, exists_eq_left]
    exact or_comm

/-! ## 2. The greatest statement -/

section Greatest

variable [LinearOrder κ] {rank : α → κ} {sel : α → Option β} {l l' : List α} {o : Option β}

/-- `o` is what a picked statement of greatest rank says, `none` when no statement is picked. -/
def Greatest (rank : α → κ) (sel : α → Option β) (l : List α) : Option β → Prop
  | none => ∀ a ∈ l, sel a = none
  | some b => ∃ a ∈ l, sel a = some b ∧ ∀ a' ∈ l, (sel a').isSome → rank a' ≤ rank a

theorem Greatest.congr (h : Greatest rank sel l o) (hmem : ∀ a, a ∈ l ↔ a ∈ l') :
    Greatest rank sel l' o := by
  cases o with
  | none => exact fun a ha => h a ((hmem a).mpr ha)
  | some b =>
    obtain ⟨a, ha, hb, hmax⟩ := h
    exact ⟨a, (hmem a).mp ha, hb, fun a' ha' => hmax a' ((hmem a').mpr ha')⟩

theorem greatest_last (hl : l.Pairwise fun a b => rank a ≤ rank b) :
    Greatest rank sel l (last sel l) := by
  induction l using List.reverseRecOn with
  | nil =>
    intro a ha
    cases ha
  | append_singleton l a ih =>
    rw [last_append]
    obtain ⟨hinit, -, hlast⟩ := pairwise_append.mp hl
    cases ha : sel a with
    | some b =>
      refine ⟨a, by simp, ha, fun a' ha' _ => ?_⟩
      rcases mem_append.mp ha' with hmem | hmem
      · exact hlast a' hmem a (by simp)
      · rw [mem_singleton.mp hmem]
    | none =>
      have hold := ih hinit
      rw [Option.none_or]
      cases hl : last sel l with
      | none =>
        rw [hl] at hold
        intro a' ha'
        rcases mem_append.mp ha' with hmem | hmem
        · exact hold a' hmem
        · rw [mem_singleton.mp hmem, ha]
      | some b =>
        rw [hl] at hold
        obtain ⟨w, hw, hb, hmax⟩ := hold
        refine ⟨w, mem_append_left _ hw, hb, fun a' ha' hsome => ?_⟩
        rcases mem_append.mp ha' with hmem | hmem
        · exact hmax a' hmem hsome
        · rw [mem_singleton.mp hmem, ha] at hsome
          cases hsome

theorem Greatest.isSome_iff (h : Greatest rank sel l o) : o.isSome ↔ ∃ a ∈ l, (sel a).isSome := by
  cases o with
  | none =>
    refine iff_of_false (by simp) ?_
    intro hex
    obtain ⟨a, ha, hsome⟩ := hex
    rw [h a ha] at hsome
    cases hsome
  | some b =>
    obtain ⟨a, ha, hb, -⟩ := h
    exact iff_of_true rfl ⟨a, ha, by rw [hb]; rfl⟩

theorem Greatest.unique {o' : Option β} (h : Greatest rank sel l o) (h' : Greatest rank sel l o')
    (hsel : ∀ a b, rank a = rank b → sel a = sel b) : o = o' := by
  have hiff : o.isSome ↔ o'.isSome := h.isSome_iff.trans h'.isSome_iff.symm
  cases o with
  | none =>
    cases o' with
    | none => rfl
    | some b' => exact absurd (hiff.mpr rfl) Bool.false_ne_true
  | some b =>
    cases o' with
    | none => exact absurd (hiff.mp rfl) Bool.false_ne_true
    | some b' =>
      obtain ⟨a, ha, hb, hmax⟩ := h
      obtain ⟨a', ha', hb', hmax'⟩ := h'
      have hrank : rank a = rank a' :=
        le_antisymm (hmax' a ha (by rw [hb]; rfl)) (hmax a' ha' (by rw [hb']; rfl))
      rw [← hb, ← hb', hsel a a' hrank]

end Greatest

/-! ## 3. The walk order -/

section Sorted

variable [LinearOrder κ] (rank : α → κ) {l : List α}

/-- The statements in ascending rank; those of one rank keep their order. -/
def sorted (l : List α) : List α := l.insertionSort fun a b => rank a ≤ rank b

theorem pairwise_sorted (l : List α) : (sorted rank l).Pairwise fun a b => rank a ≤ rank b := by
  have htotal : Std.Total fun a b : α => rank a ≤ rank b := ⟨fun _ _ => le_total _ _⟩
  have htrans : IsTrans α fun a b => rank a ≤ rank b := ⟨fun _ _ _ => le_trans⟩
  exact pairwise_insertionSort _ l

theorem sorted_perm (l : List α) : (sorted rank l).Perm l := perm_insertionSort _ l

theorem sorted_strict (h : l.Pairwise fun a b => rank a ≠ rank b) :
    (sorted rank l).Pairwise fun a b => rank a < rank b :=
  ((pairwise_sorted rank l).and (h.perm (sorted_perm rank l).symm Ne.symm)).imp
    fun hab => lt_of_le_of_ne hab.1 hab.2

theorem mem_sorted {a : α} : a ∈ sorted rank l ↔ a ∈ l := (sorted_perm rank l).mem_iff

variable {rank} {f : α → α}

/-- **The input order is not seen**: two orders of the same statements are walked alike, once
    statements of one rank are read as the same thing. -/
theorem map_sorted_eq_of_perm (hrank : ∀ a, rank (f a) = rank a)
    (hinj : ∀ a b, rank a = rank b → f a = f b) {l' : List α} (h : l.Perm l') :
    (sorted rank l).map f = (sorted rank l').map f := by
  have hsorted : ∀ k : List α, ((sorted rank k).map f).Pairwise fun a b => rank a ≤ rank b := by
    intro k
    rw [pairwise_map]
    refine (pairwise_sorted rank k).imp fun hab => ?_
    rwa [hrank, hrank]
  have hperm : ((sorted rank l).map f).Perm ((sorted rank l').map f) :=
    (((sorted_perm rank l).trans h).trans (sorted_perm rank l').symm).map f
  refine hperm.eq_of_pairwise (fun a b ha hb hab hba => ?_) (hsorted l) (hsorted l')
  obtain ⟨x, -, rfl⟩ := mem_map.mp ha
  obtain ⟨y, -, rfl⟩ := mem_map.mp hb
  have heq := le_antisymm hab hba
  rw [hrank, hrank] at heq
  exact hinj x y heq

theorem sorted_eq_of_perm {l' : List α} (hinj : ∀ a ∈ l, ∀ b ∈ l, rank a = rank b → a = b)
    (h : l.Perm l') : sorted rank l = sorted rank l' := by
  have hperm : (sorted rank l).Perm (sorted rank l') :=
    ((sorted_perm rank l).trans h).trans (sorted_perm rank l').symm
  refine hperm.eq_of_pairwise (fun a b ha hb hab hba => ?_) (pairwise_sorted rank l)
    (pairwise_sorted rank l')
  have hb' : b ∈ l := h.mem_iff.mpr ((mem_sorted rank).mp hb)
  exact hinj a ((mem_sorted rank).mp ha) b hb' (le_antisymm hab hba)

theorem sorted_eq_self (h : l.Pairwise fun a b => rank a ≤ rank b) : sorted rank l = l := by
  unfold sorted
  induction l with
  | nil => rfl
  | cons a l ih =>
    obtain ⟨ha, hl⟩ := pairwise_cons.mp h
    rw [insertionSort_cons, ih hl]
    cases l with
    | nil => rfl
    | cons b l => rw [orderedInsert_cons, if_pos (ha b mem_cons_self)]

theorem map_sorted (hrank : ∀ a, rank (f a) = rank a) (l : List α) :
    (sorted rank l).map f = sorted rank (l.map f) :=
  map_insertionSort _ _ f l fun a _ b _ => by rw [hrank, hrank]

theorem filter_orderedInsert (k : κ) (a : α) (l : List α) :
    (l.orderedInsert (fun x y => rank x ≤ rank y) a).filter (rank · = k) =
      (a :: l).filter (rank · = k) := by
  induction l with
  | nil => rfl
  | cons b l ih =>
    rw [orderedInsert_cons]
    by_cases hab : rank a ≤ rank b
    · rw [if_pos hab]
    rw [if_neg hab, filter_cons, ih]
    by_cases hb : rank b = k
    · have ha : ¬ rank a = k := fun ha => hab (by rw [ha, hb])
      simp [ha, hb]
    · simp [hb, filter_cons]

theorem filter_sorted (k : κ) (l : List α) :
    (sorted rank l).filter (rank · = k) = l.filter (rank · = k) := by
  unfold sorted
  induction l with
  | nil => rfl
  | cons a l ih =>
    rw [insertionSort_cons, filter_orderedInsert, filter_cons, filter_cons, ih]

theorem last_sorted {sel : α → Option β} {k : κ} (hsel : ∀ a, (sel a).isSome → rank a = k)
    (l : List α) : last sel (sorted rank l) = last sel l := by
  have hfilter : ∀ l : List α, (l.filter (rank · = k)).filterMap sel = l.filterMap sel := by
    intro l
    rw [filterMap_filter]
    congr 1
    funext a
    by_cases ha : rank a = k
    · simp [ha]
    · have hnone : sel a = none := by
        by_contra hne
        exact ha (hsel a (Option.isSome_iff_ne_none.mpr hne))
      simp [ha, hnone]
  unfold last
  rw [← hfilter, filter_sorted, hfilter]

end Sorted

end RagRat.Lib.Register
