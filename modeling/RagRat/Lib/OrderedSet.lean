/-
  File:      RagRat/Lib/OrderedSet.lean
  Subject:   Finite sets kept as strictly ascending lists: insertion, sorting with the neighbouring
             repeats dropped, and the merges of sorted runs, which may be abandoned half way.

  * `insert`, `insertAll` -- a tree set, one element at a time;
  * `mergePolled` -- two ascending lists into one, asking now and then whether to stop;
  * `mergeRuns` -- any number of sorted runs through a heap of their heads, asking the same;
  * **`mergePolled_eq`, `mergeRuns_eq`** -- what a merge that is not stopped returns is the one
    ascending list of the elements it was given.
-/
import Mathlib.Algebra.GroupWithZero.Nat
import Mathlib.Data.List.Sort
import Mathlib.Data.Prod.Lex
import Mathlib.Order.MinMax

namespace RagRat.Lib.OrderedSet

open List
open List.Pairwise List.Sublist

variable {α : Type} [LinearOrder α] {l l' sorted : List α} {a b : α}

/-- Strictly ascending. -/
def Ascends (l : List α) : Prop := l.Pairwise (· < ·)

theorem Ascends.ext (h : Ascends l) (h' : Ascends l') (hmem : ∀ a, a ∈ l ↔ a ∈ l') : l = l' :=
  eq_of_mem_iff h h' hmem

theorem Ascends.head_le (h : Ascends (a :: l)) (hb : b ∈ a :: l) : a ≤ b := by
  rcases mem_cons.mp hb with rfl | hb
  · exact le_rfl
  · exact ((pairwise_cons.mp h).1 b hb).le

theorem foldl_max_le_iff {c : α} : l.foldl max a ≤ c ↔ a ≤ c ∧ ∀ b ∈ l, b ≤ c := by
  induction l generalizing a with
  | nil => simp
  | cons b l ih => rw [foldl_cons, ih, max_le_iff, forall_mem_cons, and_assoc]

theorem le_foldl_max (h : b ∈ l) : b ≤ l.foldl max a :=
  (foldl_max_le_iff.mp le_rfl).2 b h

/-- Put `a` in its place, unless it is there. -/
def insert (a : α) : List α → List α
  | [] => [a]
  | b :: l => if a < b then a :: b :: l else if b < a then b :: insert a l else b :: l

theorem mem_insert : b ∈ insert a l ↔ b = a ∨ b ∈ l := by
  induction l with
  | nil => simp [insert]
  | cons c l ih =>
    unfold insert
    split
    · simp
    · split
      · rw [mem_cons, ih, mem_cons, or_left_comm]
      · have hac : a = c := le_antisymm (not_lt.mp ‹_›) (not_lt.mp ‹_›)
        simp [hac]

theorem Ascends.insert (h : Ascends l) (a : α) : Ascends (insert a l) := by
  induction l with
  | nil => exact pairwise_singleton _ _
  | cons c l ih =>
    obtain ⟨hc, hl⟩ := pairwise_cons.mp h
    unfold OrderedSet.insert
    split
    · refine pairwise_cons.mpr ⟨fun b hb => ?_, h⟩
      rcases mem_cons.mp hb with rfl | hb
      · assumption
      · exact lt_trans ‹_› (hc b hb)
    · split
      · refine pairwise_cons.mpr ⟨fun b hb => ?_, ih hl⟩
        rcases mem_insert.mp hb with rfl | hb
        · assumption
        · exact hc b hb
      · exact h

/-- Insert every element of `l`, in its order. -/
def insertAll (s l : List α) : List α := l.foldl (fun s a => insert a s) s

theorem mem_insertAll {s : List α} : a ∈ insertAll s l ↔ a ∈ s ∨ a ∈ l := by
  induction l generalizing s with
  | nil => simp [insertAll]
  | cons b l ih =>
    rw [show insertAll s (b :: l) = insertAll (insert b s) l from rfl, ih, mem_insert, mem_cons,
      or_assoc, or_left_comm]

theorem Ascends.insertAll {s : List α} (h : Ascends s) (l : List α) : Ascends (insertAll s l) := by
  induction l generalizing s with
  | nil => exact h
  | cons a l ih => exact ih (h.insert a)

/-- The elements of `l`, each once and ascending. -/
def ofList (l : List α) : List α := insertAll [] l

theorem ascends_ofList (l : List α) : Ascends (ofList l) := Ascends.insertAll nil l

@[simp] theorem mem_ofList : a ∈ ofList l ↔ a ∈ l := by
  simp [ofList, mem_insertAll]

theorem Ascends.eq_ofList (h : Ascends l) (hmem : ∀ a, a ∈ l ↔ a ∈ l') : l = ofList l' :=
  h.ext (ascends_ofList l') fun a => by rw [hmem, mem_ofList]

theorem ofList_congr (hmem : ∀ a, a ∈ l ↔ a ∈ l') : ofList l = ofList l' :=
  (ascends_ofList l).eq_ofList fun a => by rw [mem_ofList, hmem]

/-! ## 2. Sorting and dropping equal neighbours -/

/-- Append `a`, unless it already stands last. -/
def pushDistinct (l : List α) (a : α) : List α := if l.getLast? = some a then l else l ++ [a]

/-- Drop every element equal to the one kept before it. -/
def dropRepeats (l : List α) : List α := l.foldl pushDistinct []

/-- Sort, then drop equal neighbours. -/
def sortDedup (l : List α) : List α := dropRepeats (l.insertionSort (· ≤ ·))

theorem mem_pushDistinct : b ∈ pushDistinct l a ↔ b ∈ l ∨ b = a := by
  unfold pushDistinct
  split
  · have := mem_of_getLast? ‹_›
    constructor
    · exact .inl
    · rintro (h | rfl)
      · exact h
      · exact this
  · simp

theorem Ascends.pushDistinct (h : Ascends l) (hle : ∀ b ∈ l, b ≤ a) : Ascends (pushDistinct l a) := by
  unfold OrderedSet.pushDistinct
  split
  · exact h
  refine pairwise_append.mpr ⟨h, pairwise_singleton _ _, fun b hb c hc => ?_⟩
  rw [mem_singleton.mp hc]
  refine lt_of_le_of_ne (hle b hb) ?_
  rintro rfl
  -- `b` is the greatest of an ascending list, so it would stand last
  obtain ⟨l₁, l₂, rfl⟩ := append_of_mem hb
  cases l₂ with
  | nil => simp at *
  | cons c l₂ =>
    have hbc := (pairwise_cons.mp (pairwise_append.mp h).2.1).1 c mem_cons_self
    exact absurd (hle c (by simp)) (not_le.mpr hbc)

theorem foldl_pushDistinct {s : List α} (hs : Ascends s) (hl : l.Pairwise (· ≤ ·))
    (hsl : ∀ a ∈ s, ∀ b ∈ l, a ≤ b) :
    Ascends (l.foldl pushDistinct s) ∧ ∀ a, a ∈ l.foldl pushDistinct s ↔ a ∈ s ∨ a ∈ l := by
  induction l generalizing s with
  | nil => simpa using hs
  | cons b l ih =>
    obtain ⟨hb, hl⟩ := pairwise_cons.mp hl
    have hle : ∀ a ∈ s, a ≤ b := fun a ha => hsl a ha b mem_cons_self
    obtain ⟨hasc, hmem⟩ := ih (hs.pushDistinct hle) hl (by
      intro a ha c hc
      rcases mem_pushDistinct.mp ha with ha | rfl
      · exact hsl a ha c (mem_cons_of_mem _ hc)
      · exact hb c hc)
    refine ⟨hasc, fun a => ?_⟩
    rw [foldl_cons, hmem, mem_pushDistinct, mem_cons, or_assoc]

theorem sortDedup_eq_ofList (l : List α) : sortDedup l = ofList l := by
  obtain ⟨hasc, hmem⟩ := foldl_pushDistinct (nil : Ascends ([] : List α))
    (pairwise_insertionSort (· ≤ ·) l) (by simp)
  refine Ascends.ext hasc (ascends_ofList l) fun a => (hmem a).trans ?_
  simp [(perm_insertionSort (· ≤ ·) l).mem_iff]

/-! ## 3. Merging two ascending lists -/

/-- Every so many steps the loops below ask whether to go on. -/
def stops (stop : Nat → Bool) (visits : Nat) : Bool := visits % 1024 = 0 && stop visits

/-- One ascending list out of two: the smaller head goes first, equal heads go together. -/
def mergePolled (stop : Nat → Bool) (visits : Nat) (xs ys merged : List α) : Option (List α) :=
  match xs, ys with
  | [], [] => some merged
  | x :: xs, [] =>
    if stops stop visits then none
    else mergePolled stop (visits + 1) xs [] (pushDistinct merged x)
  | [], y :: ys =>
    if stops stop visits then none
    else mergePolled stop (visits + 1) [] ys (pushDistinct merged y)
  | x :: xs, y :: ys =>
    if stops stop visits then none
    else if x < y then mergePolled stop (visits + 1) xs (y :: ys) (pushDistinct merged x)
    else if y < x then mergePolled stop (visits + 1) (x :: xs) ys (pushDistinct merged y)
    else mergePolled stop (visits + 1) xs ys (pushDistinct merged x)
termination_by xs.length + ys.length

/-- What the merge has put out so far, and what it has still to take. -/
structure Merging (xs ys merged : List α) : Prop where
  left : Ascends xs
  right : Ascends ys
  out : Ascends merged
  below : ∀ a ∈ merged, ∀ b, b ∈ xs ∨ b ∈ ys → a ≤ b

theorem exists_of_stops {stop : Nat → Bool} {visits : Nat} (h : stops stop visits = true) :
    ∃ n, stop n = true :=
  ⟨visits, (Bool.and_eq_true_iff.mp h).2⟩

theorem Merging.turn {xs ys xs' ys' merged : List α} {P : Prop} {r : Option (List α)}
    (h : Merging xs ys merged) (hxs : xs'.Sublist xs) (hys : ys'.Sublist ys) (ha : a ∈ xs ∨ a ∈ ys)
    (hleast : ∀ b, b ∈ xs ∨ b ∈ ys → a ≤ b) (hrest : ∀ b, b ∈ xs ∨ b ∈ ys → b = a ∨ b ∈ xs' ∨ b ∈ ys')
    (ih : Merging xs' ys' (pushDistinct merged a) →
      r = none ∧ P ∨ r = some (ofList (pushDistinct merged a ++ xs' ++ ys'))) :
    r = none ∧ P ∨ r = some (ofList (merged ++ xs ++ ys)) := by
  have hmem : ∀ b, b ∈ xs' ∨ b ∈ ys' → b ∈ xs ∨ b ∈ ys := fun b => Or.imp (hxs.subset ·) (hys.subset ·)
  refine (ih ⟨h.left.sublist hxs, h.right.sublist hys, ?_, fun b hb c hc => ?_⟩).imp_right fun e => ?_
  · exact h.out.pushDistinct fun b hb => h.below b hb a ha
  · rcases mem_pushDistinct.mp hb with hb | rfl
    · exact h.below b hb c (hmem c hc)
    · exact hleast c (hmem c hc)
  · refine e.trans (congrArg some (ofList_congr fun b => ?_))
    simp only [mem_append, mem_pushDistinct, or_assoc]
    refine or_congr_right ⟨?_, hrest b⟩
    rintro (rfl | hb)
    · exact ha
    · exact hmem b hb

theorem mergePolled_eq (stop : Nat → Bool) (visits : Nat) (xs ys merged : List α)
    (h : Merging xs ys merged) :
    mergePolled stop visits xs ys merged = none ∧ (∃ n, stop n = true) ∨
      mergePolled stop visits xs ys merged = some (ofList (merged ++ xs ++ ys)) := by
  fun_induction mergePolled stop visits xs ys merged with
  | case1 visits merged => exact .inr (congrArg some (h.out.eq_ofList (by simp)))
  | case2 _ _ _ _ hstop | case4 _ _ _ _ hstop => exact .inl ⟨rfl, exists_of_stops hstop⟩
  | case6 _ _ _ _ _ _ hstop => exact .inl ⟨rfl, exists_of_stops hstop⟩
  | case3 visits merged x xs hstop ih =>
    refine h.turn (sublist_cons_self x xs) (refl _) (.inl mem_cons_self) ?_ (by simp) ih
    exact fun b hb => hb.elim h.left.head_le nofun
  | case5 visits merged y ys hstop ih =>
    refine h.turn (refl _) (sublist_cons_self y ys) (.inr mem_cons_self) ?_ (by simp) ih
    exact fun b hb => hb.elim nofun h.right.head_le
  | case7 visits merged x xs y ys hstop hlt ih =>
    refine h.turn (sublist_cons_self x xs) (refl _) (.inl mem_cons_self) ?_ (by simp [or_assoc]) ih
    exact fun b hb => hb.elim h.left.head_le fun hb => hlt.le.trans (h.right.head_le hb)
  | case8 visits merged x xs y ys hstop hlt hgt ih =>
    refine h.turn (refl _) (sublist_cons_self y ys) (.inr mem_cons_self) ?_ (by simp; tauto) ih
    exact fun b hb => hb.elim (fun hb => hgt.le.trans (h.left.head_le hb)) h.right.head_le
  | case9 visits merged x xs y ys hstop hlt hgt ih =>
    have hxy : x = y := le_antisymm (not_lt.mp hgt) (not_lt.mp hlt)
    refine h.turn (sublist_cons_self x xs) (sublist_cons_self y ys) (.inl mem_cons_self) ?_
      (by simp [hxy]; tauto) ih
    exact fun b hb => hb.elim h.left.head_le fun hb => hxy.le.trans (h.right.head_le hb)

/-! ## 4. Merging sorted runs through a heap -/

/-- What is left of one sorted run: its head and what comes after it. -/
structure Run (α : Type) where
  head : α
  number : Nat
  rest : List α

open Run

variable {r s : Run α} {heap : List (Run α)}

/-- The run whose head is least comes off the heap first, the earlier run on a tie. -/
def Run.before (r s : Run α) : Prop := r.head < s.head ∨ r.head = s.head ∧ r.number ≤ s.number

instance (r s : Run α) : Decidable (r.before s) :=
  inferInstanceAs (Decidable (r.head < s.head ∨ r.head = s.head ∧ r.number ≤ s.number))

/-- The heap, as the list of its runs in the order they come off. -/
def pushRun (r : Run α) (heap : List (Run α)) : List (Run α) := heap.orderedInsert before r

/-- Take the least head off the heap, and put the rest of its run back. -/
def mergeRuns (stop : Nat → Bool) (visits : Nat) (heap : List (Run α)) (sorted : List α) :
    Option (List α) :=
  match heap with
  | [] => some sorted
  | r :: heap =>
    if stops stop visits then none
    else match hrest : r.rest with
      | [] => mergeRuns stop (visits + 1) heap (pushDistinct sorted r.head)
      | a :: rest =>
        mergeRuns stop (visits + 1) (pushRun ⟨a, r.number, rest⟩ heap) (pushDistinct sorted r.head)
termination_by (heap.map fun r => r.rest.length + 1).sum
decreasing_by
  · simp
  · have hperm := ((perm_orderedInsert before ⟨a, r.number, rest⟩ heap).map
      fun r => r.rest.length + 1).sum_nat
    simp only [pushRun, hperm, map_cons, sum_cons, hrest, length_cons]
    omega

/-- The heads of the non-empty runs, numbered from `n` on. -/
def heapOf (n : Nat) : List (List α) → List (Run α)
  | [] => []
  | [] :: runs => heapOf (n + 1) runs
  | (a :: rest) :: runs => pushRun ⟨a, n, rest⟩ (heapOf (n + 1) runs)

/-- All that is left in a run. -/
def Run.elements (r : Run α) : List α := r.head :: r.rest

theorem Run.before_iff : r.before s ↔ toLex (r.head, r.number) ≤ toLex (s.head, s.number) := by
  rw [Prod.Lex.toLex_le_toLex]
  rfl

theorem Run.head_le_of_before (h : r.before s) : r.head ≤ s.head :=
  h.elim le_of_lt fun h => h.1.le

instance : Std.Total (before : Run α → Run α → Prop) :=
  ⟨fun r s => (le_total (toLex (r.head, r.number)) (toLex (s.head, s.number))).imp before_iff.mpr before_iff.mpr⟩

instance : IsTrans (Run α) before :=
  ⟨fun _ _ _ h h' => before_iff.mpr ((before_iff.mp h).trans (before_iff.mp h'))⟩

/-- The heap in its order, every run on it sorted, and nothing on it below what was put out. -/
structure Heaped (heap : List (Run α)) (sorted : List α) : Prop where
  ordered : heap.Pairwise before
  runs : ∀ r ∈ heap, r.elements.Pairwise (· ≤ ·)
  out : Ascends sorted
  below : ∀ a ∈ sorted, ∀ r ∈ heap, ∀ b ∈ r.elements, a ≤ b

theorem mem_pushRun : s ∈ pushRun r heap ↔ s = r ∨ s ∈ heap :=
  mem_orderedInsert _

theorem mem_elements_pushRun :
    a ∈ (pushRun r heap).flatMap elements ↔ a ∈ r.elements ∨ a ∈ heap.flatMap elements := by
  simp only [mem_flatMap, mem_pushRun, exists_eq_or_imp]

theorem Heaped.least (h : Heaped (r :: heap) sorted) :
    ∀ s ∈ r :: heap, ∀ b ∈ s.elements, r.head ≤ b := by
  have hhead : ∀ s ∈ r :: heap, ∀ b ∈ s.elements, s.head ≤ b := by
    intro s hs b hb
    rcases mem_cons.mp hb with rfl | hb
    · exact le_rfl
    · exact (pairwise_cons.mp (h.runs s hs)).1 b hb
  intro s hs b hb
  refine le_trans ?_ (hhead s hs b hb)
  rcases mem_cons.mp hs with rfl | hs
  · exact le_rfl
  · exact head_le_of_before ((pairwise_cons.mp h.ordered).1 s hs)

theorem Heaped.pop (h : Heaped (r :: heap) sorted) : Heaped heap (pushDistinct sorted r.head) where
  ordered := (pairwise_cons.mp h.ordered).2
  runs s hs := h.runs s (mem_cons_of_mem r hs)
  out := h.out.pushDistinct fun b hb => h.below b hb r mem_cons_self r.head mem_cons_self
  below := by
    intro a ha s hs b hb
    rcases mem_pushDistinct.mp ha with ha | rfl
    · exact h.below a ha s (mem_cons_of_mem r hs) b hb
    · exact h.least s (mem_cons_of_mem r hs) b hb

theorem Heaped.push (h : Heaped heap sorted) (hr : r.elements.Pairwise (· ≤ ·))
    (hbelow : ∀ a ∈ sorted, ∀ b ∈ r.elements, a ≤ b) : Heaped (pushRun r heap) sorted where
  ordered := h.ordered.orderedInsert r heap
  runs s hs := by
    rcases mem_pushRun.mp hs with rfl | hs
    · exact hr
    · exact h.runs s hs
  out := h.out
  below a ha s hs b hb := by
    rcases mem_pushRun.mp hs with rfl | hs
    · exact hbelow a ha b hb
    · exact h.below a ha s hs b hb

theorem mergeRuns_eq (stop : Nat → Bool) (visits : Nat) (heap : List (Run α)) (sorted : List α)
    (h : Heaped heap sorted) : mergeRuns stop visits heap sorted = none ∧ (∃ n, stop n = true) ∨
      mergeRuns stop visits heap sorted = some (ofList (sorted ++ heap.flatMap elements)) := by
  fun_induction mergeRuns stop visits heap sorted with
  | case1 visits sorted => exact .inr (congrArg some (h.out.eq_ofList (by simp)))
  | case2 visits sorted r heap hstop => exact .inl ⟨rfl, exists_of_stops hstop⟩
  | case3 visits sorted r heap hstop hrest ih =>
    refine (ih h.pop).imp_right fun e => e.trans (congrArg some (ofList_congr fun a => ?_))
    simp [mem_pushDistinct, elements, hrest, or_assoc]
  | case4 visits sorted r heap hstop a rest hrest ih =>
    have hr := h.runs r mem_cons_self
    rw [elements, hrest] at hr
    obtain ⟨-, hrun⟩ := pairwise_cons.mp hr
    have hheaped := h.pop.push (r := ⟨a, r.number, rest⟩) hrun (by
      intro b hb c hc
      have hc' : c ∈ r.elements := by
        rw [elements, hrest]
        exact mem_cons_of_mem _ hc
      rcases mem_pushDistinct.mp hb with hb | rfl
      · exact h.below b hb r mem_cons_self c hc'
      · exact h.least r mem_cons_self c hc')
    refine (ih hheaped).imp_right fun e => e.trans (congrArg some (ofList_congr fun b => ?_))
    have hr' : b ∈ r.elements ↔ b = r.head ∨ b ∈ (⟨a, r.number, rest⟩ : Run α).elements := by
      simp only [elements, hrest, mem_cons]
    rw [mem_append, mem_append, mem_pushDistinct, mem_elements_pushRun, flatMap_cons, mem_append, hr']
    grind

theorem heaped_heapOf (n : Nat) {runs : List (List α)} (h : ∀ l ∈ runs, l.Pairwise (· ≤ ·)) :
    Heaped (heapOf n runs) [] := by
  induction runs generalizing n with
  | nil => exact ⟨nil, nofun, nil, nofun⟩
  | cons l runs ih =>
    have hrest := ih (n + 1) fun l' hl' => h l' (mem_cons_of_mem l hl')
    cases l with
    | nil => exact hrest
    | cons a l => exact hrest.push (h _ mem_cons_self) nofun

theorem mem_heapOf_elements (n : Nat) (runs : List (List α)) (a : α) :
    a ∈ (heapOf n runs).flatMap elements ↔ a ∈ runs.flatten := by
  induction runs generalizing n with
  | nil => simp [heapOf]
  | cons l runs ih =>
    cases l with
    | nil => simp [heapOf, ih]
    | cons b l =>
      rw [heapOf, mem_elements_pushRun, ih, flatten_cons, mem_append, elements]

/-- Cut a list into pieces of `size + 1`, the last one maybe shorter. -/
def chunks {β : Type} (size : Nat) : List β → List (List β)
  | [] => []
  | b :: l => (b :: l).take (size + 1) :: chunks size (l.drop size)
termination_by l => l.length
decreasing_by
  simp only [length_drop, length_cons]
  omega

theorem flatten_chunks {β : Type} (size : Nat) (l : List β) : (chunks size l).flatten = l := by
  fun_induction chunks size l with
  | case1 => rfl
  | case2 b l ih => rw [flatten_cons, ih, take_succ_cons, cons_append,
      take_append_drop]

end RagRat.Lib.OrderedSet
