/-
  File:      RagRat/Account/PreVerify.lean
  Subject:   THE PARK QUEUE under its two budgets: after every insert the oldest rows go, first of the
             owner and then of all.

  * `enforceBudget`, `insertParked` -- the queue for any two budgets; `insertPreVerify_table` -- the
    account queue is one;
  * `retained_exact` -- whatever the order of arrival, what is left is what both budgets keep of all the
    rows.
-/
import RagRat.Account.Ingest
import RagRat.Lib.Budget

namespace RagRat.Account

open List Lib.Register Lib.Budget

variable {W S : Type}

/-! ## 1. The queue -/

/-- A bound, and what it is reported as. -/
structure QueueBudget (S : Type) where
  max : Nat
  scope : S

/-- What became of an insert. -/
inductive BudgetOutcome (S : Type) where
  | parked (evicted : List S)
  | atCapacity (scope : S)

/-- The rows left when the oldest over the limit are deleted, and how many went. -/
def evictOldest (owner : Option AccountId) (limit : Nat) (rows : List (ParkedRow W)) :
    Nat × List (ParkedRow W) :=
  let left := dropParked rows (overLimit rows owner limit)
  (rows.length - left.length, left)

/-- The budgets in turn, as long as the inserted row is there. -/
def enforceBudget (inserted : Bytes32) : List (Option AccountId × QueueBudget S) → List S →
    List (ParkedRow W) → BudgetOutcome S × List (ParkedRow W)
  | [], evicted, rows => (.parked evicted, rows)
  | (owner, budget) :: budgets, evicted, rows =>
    let (count, left) := evictOldest owner budget.max rows
    if left.any (·.signedHash = inserted) then
      enforceBudget inserted budgets (if 0 < count then evicted ++ [budget.scope] else evicted) left
    else (.atCapacity budget.scope, left)

/-- Park a row once, then let both budgets evict. -/
def insertParked (perOwner global : QueueBudget S) (parked : List (ParkedRow W)) (row : ParkedRow W) :
    BudgetOutcome S × List (ParkedRow W) :=
  if parked.any (·.signedHash = row.signedHash) then (.parked [], parked)
  else enforceBudget row.signedHash [(some row.account, perOwner), (none, global)] [] (parked ++ [row])

/-- The rows in the order they arrive, from an empty queue. -/
def parkAll (perOwner global : QueueBudget S) (rows : List (ParkedRow W)) : List (ParkedRow W) :=
  rows.foldl (fun parked row => (insertParked perOwner global parked row).2) []

theorem insertParked_table {perOwner global : QueueBudget S} {parked : List (ParkedRow W)}
    {row : ParkedRow W} (hnew : ¬ parked.any (·.signedHash = row.signedHash)) :
    (insertParked perOwner global parked row).2 =
      let kept := (evictOldest (some row.account) perOwner.max (parked ++ [row])).2
      if kept.any (·.signedHash = row.signedHash) then (evictOldest none global.max kept).2 else kept := by
  rw [insertParked, if_neg hnew]
  simp only [enforceBudget]
  split_ifs <;> rfl

theorem insertPreVerify_table (parked : List (ParkedRow W)) (row : ParkedRow W) :
    (insertPreVerify parked row).2 =
      (insertParked ⟨preVerifyPerAccountMax, CapacityScope.preVerifyAccount⟩
        ⟨preVerifyGlobalMax, .preVerifyGlobal⟩ parked row).2 := by
  by_cases hnew : parked.any (·.signedHash = row.signedHash)
  · simp only [insertPreVerify, insertParked, hnew, if_true]
  have hthere : ∀ hashes, (dropParked (parked ++ [row]) hashes).any (·.signedHash = row.signedHash) ↔
      row.signedHash ∉ hashes := by
    intro hashes
    simp only [dropParked, any_filter, any_eq_true, Bool.and_eq_true, decide_eq_true_eq]
    exact ⟨fun ⟨r, _, hr, he⟩ => he ▸ hr, fun h => ⟨row, mem_append_right _ mem_cons_self, h, rfl⟩⟩
  rw [insertParked_table hnew]
  simp only [insertPreVerify, hnew, evictOldest, hthere]
  split_ifs <;> first | rfl | contradiction

/-! ## 2. What is left -/

/-- The order the rows are dropped in. -/
def age (row : ParkedRow W) : ℤ ×ₗ Bytes32 := toLex (row.receivedAtMs, row.signedHash)

theorem byAge_eq (rows : List (ParkedRow W)) : byAge rows = sorted age rows := by
  unfold byAge sorted
  congr 1
  funext a b
  rw [age, age, Prod.Lex.toLex_le_toLex]

variable [DecidableEq W] {rows : List (ParkedRow W)} {row : ParkedRow W} {owner : Option AccountId}
  {limit : Nat}

theorem injOn_age (hd : (rows.map (·.signedHash)).Nodup) :
    Set.InjOn age (rows.toFinset : Set (ParkedRow W)) := fun _ ha _ hb h =>
  inj_on_of_nodup_map hd (mem_toFinset.mp ha) (mem_toFinset.mp hb) (congrArg (fun k => (ofLex k).2) h)

theorem mem_evictOldest (hd : (rows.map (·.signedHash)).Nodup) :
    row ∈ (evictOldest owner limit rows).2 ↔ row ∈ rows ∧ (owner.all (· = row.account) →
      row ∈ greatest age limit (rows.filter fun r => owner.all (· = r.account)).toFinset) := by
  generalize hin : (rows.filter fun r => owner.all (· = r.account)) = inScope
  have hsub : ∀ r ∈ inScope, r ∈ rows := fun r hr => mem_of_mem_filter (hin ▸ hr)
  have hperm := sorted_perm age inScope
  have hasc : (sorted age inScope).Pairwise fun a b => age a < age b := by
    refine sorted_strict _ (((pairwise_map.mp hd).sublist (hin ▸ filter_sublist)).imp fun h he => h ?_)
    exact congrArg (fun k => (ofLex k).2) he
  have hvictim : ∀ {r}, r ∈ (sorted age inScope).take (inScope.length - limit) ↔
      r ∈ inScope ∧ r ∉ greatest age limit inScope.toFinset := by
    intro r
    rw [← hperm.length_eq, mem_take_iff hasc, hperm.mem_iff, toFinset_eq_of_perm _ _ hperm]
  simp only [evictOldest, dropParked, overLimit, hin, byAge_eq, mem_filter, decide_eq_true_eq, mem_map]
  refine and_congr_right fun hrow => ?_
  have hscope : row ∈ inScope ↔ owner.all (· = row.account) := by
    rw [← hin, mem_filter, and_iff_right hrow]
  rw [← hscope, ← not_and_not_right, ← hvictim]
  refine not_congr ⟨?_, fun h => ⟨row, h, rfl⟩⟩
  rintro ⟨r, hr, he⟩
  exact inj_on_of_nodup_map hd (hsub r (hvictim.mp hr).1) hrow he ▸ hr

section Insert

variable {perOwner global : QueueBudget S} {parked : List (ParkedRow W)}

theorem insertParked_within (hd : ((parked ++ [row]).map (·.signedHash)).Nodup)
    (hkept : within age (·.account) perOwner.max global.max parked.toFinset = parked.toFinset) :
    (insertParked perOwner global parked row).2 <+ parked ++ [row] ∧
      (insertParked perOwner global parked row).2.toFinset =
        within age (·.account) perOwner.max global.max (parked ++ [row]).toFinset := by
  have hnew : ¬ parked.any (·.signedHash = row.signedHash) := by
    intro h
    obtain ⟨r, hr, he⟩ := any_eq_true.mp h
    rw [map_append] at hd
    exact (nodup_append.mp hd).2.2 _ (mem_map_of_mem hr) _ mem_cons_self (of_decide_eq_true he)
  rw [insertParked_table hnew]
  have hkeep : (evictOldest (some row.account) perOwner.max (parked ++ [row])).2 <+ parked ++ [row] :=
    filter_sublist
  -- the first budget: the other owners are within it
  have hown : (evictOldest (some row.account) perOwner.max (parked ++ [row])).2.toFinset =
      perClass age (·.account) perOwner.max (parked ++ [row]).toFinset := by
    ext r
    rw [mem_toFinset, mem_evictOldest hd, mem_perClass, mem_toFinset]
    refine and_congr_right fun hr => ?_
    simp only [Option.all_some, decide_eq_true_eq, toFinset_filter, mem_greatest, Finset.mem_filter,
      mem_toFinset, hr, true_and, eq_comm (a := row.account)]
    by_cases how : r.account = row.account
    · simp [how, classOf]
    · refine iff_of_true (fun h => absurd h how) ?_
      have hold : r ∈ parked := (mem_append.mp hr).resolve_right fun h =>
        how (congrArg (·.account) (mem_singleton.mp h))
      have hclass : classOf (·.account) (parked ++ [row]).toFinset r.account =
          classOf (·.account) parked.toFinset r.account := by
        simp [classOf, Finset.filter_insert, Ne.symm how]
      rw [hclass]
      exact (mem_perClass.mp (mem_greatest.mp (hkept.symm ▸ mem_toFinset.mpr hold)).1).2
  generalize (evictOldest (some row.account) perOwner.max (parked ++ [row])).2 = kept at hown hkeep ⊢
  simp only
  split_ifs with hrow
  · refine ⟨filter_sublist.trans hkeep, ?_⟩
    rw [within, ← hown]
    ext r
    rw [mem_toFinset, mem_evictOldest ((hkeep.map _).nodup hd)]
    simp [mem_greatest]
  · -- the row itself went, and nothing else
    have hsub : kept.toFinset ⊆ parked.toFinset := fun r hr => by
      have hmem := (mem_perClass.mp (hown ▸ hr)).1
      rw [mem_toFinset] at hr hmem ⊢
      refine (mem_append.mp hmem).resolve_right fun h => hrow (any_eq_true.mpr ⟨r, hr, ?_⟩)
      simp [mem_singleton.mp h]
    have hwithin : within age (·.account) perOwner.max global.max (parked ++ [row]).toFinset ⊆
        kept.toFinset := hown ▸ Finset.filter_subset _ _
    have hsame := within_eq_of_subset (injOn_age hd) (by simp) (hwithin.trans hsub)
    rw [hkept] at hsame
    exact ⟨hkeep, subset_antisymm (hsame ▸ hsub) hwithin⟩

end Insert

/-! ## 3. Any order of arrival -/

/-- Rows to come, each with its own hash. -/
structure Arrivals (W : Type) where
  rows : List (ParkedRow W)
  distinct : (rows.map (·.signedHash)).Nodup

/-- **The queue depends only on what arrived.** -/
theorem retained_exact (perOwner global : QueueBudget S) (arrivals : Arrivals W) :
    (parkAll perOwner global arrivals.rows).toFinset =
      within age (·.account) perOwner.max global.max arrivals.rows.toFinset := by
  obtain ⟨rows, hd⟩ := arrivals
  suffices h : parkAll perOwner global rows <+ rows ∧ (parkAll perOwner global rows).toFinset =
      within age (·.account) perOwner.max global.max rows.toFinset from h.2
  induction rows using reverseRecOn with
  | nil => exact ⟨.refl _, rfl⟩
  | append_singleton rows row ih =>
    have hd' := ((sublist_append_left rows [row]).map (·.signedHash)).nodup hd
    obtain ⟨hsub, hkept⟩ := ih hd'
    have hstep : parkAll perOwner global (rows ++ [row]) =
        (insertParked perOwner global (parkAll perOwner global rows) row).2 := by
      simp [parkAll]
    have hkept' : within age (·.account) perOwner.max global.max (parkAll perOwner global rows).toFinset =
        (parkAll perOwner global rows).toFinset := by
      rw [hkept]
      exact within_eq_of_subset (injOn_age hd') within_subset subset_rfl
    have hsub' := hsub.append_right [row]
    obtain ⟨hleft, hwithin⟩ := insertParked_within ((hsub'.map _).nodup hd) hkept'
    rw [hstep]
    refine ⟨hleft.trans hsub', ?_⟩
    have hall := injOn_age hd
    rw [toFinset_append] at hall ⊢
    rw [hwithin, toFinset_append, hkept, within_union hall]

/-- A row of an account, received at this time. -/
def rowOf (account : AccountId) (time : ℤ) (hash : Bytes32) : ParkedRow Unit :=
  ⟨hash, 0, account, 0, (), time⟩

/-- One row an account and two in all: the newer of the first account stays, and the other's. -/
theorem retained_exact_pair :
    within age (·.account) 1 2 [rowOf 8 3 3, rowOf 7 2 2, rowOf 7 1 1].toFinset =
      {rowOf 7 2 2, rowOf 8 3 3} := by
  have h := retained_exact ⟨1, ()⟩ ⟨2, ()⟩ ⟨[rowOf 8 3 3, rowOf 7 2 2, rowOf 7 1 1], by decide +kernel⟩
  rw [← h]
  decide +kernel

end RagRat.Account
