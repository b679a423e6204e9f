/-
  File:      RagRat/Account/Closing.lean
  Subject:   THE CLOSING OF A PASS: what a settlement and a round of parking keep.

  * `settle_isSome` -- the sweeps end; `settle_rule` -- what the fall of one entry preserves, the settlement
    preserves; it makes no entry effective (`settle_shrinks`).
  * `close_ends`, `close_rule` -- the rounds end, and what a round preserves holds where they do.
  * `allowance` -- how long a control log an entry may cite under given outcomes; `mem_roundAhead`.
-/
import RagRat.Account.Fold

namespace RagRat.Account

open List
open Lib.Register Lib.Keyed Lib.Loop

variable {cs : List Candidate} {a b c : Candidate} {o : Outcomes} {h k : EntryHash}
  {e base credit : Nat} {x : Outcome}

/-! ## 1. Outcomes -/

/-- No two candidates have one hash. -/
def DistinctHashes (cs : List Candidate) : Prop := (cs.map Candidate.hash).Nodup

theorem DistinctHashes.eq_of_hash (h : DistinctHashes cs) (ha : a ∈ cs) (hb : b ∈ cs)
    (hab : a.hash = b.hash) : a = b :=
  inj_on_of_nodup_map h ha hb hab

theorem DistinctHashes.nodup (h : DistinctHashes cs) : cs.Nodup :=
  List.Nodup.of_map _ h

theorem Outcomes.insert_of_ne (hne : k ≠ h) (x : Outcome) : o.insert h x k = o k :=
  Function.update_of_ne hne _ _

open Outcomes

theorem Outcomes.insert_self (o : Outcomes) (h : EntryHash) (x : Outcome) : o.insert h x h = some x :=
  Function.update_self _ _ _

theorem Outcomes.isEffective_iff : o.isEffective h = true ↔ ∃ e, o.authEpoch h = some e := by
  unfold isEffective authEpoch
  cases o h with
  | none => simp
  | some x => cases x <;> simp [Outcome.isEffective, Outcome.authEpoch]

theorem Outcomes.authEpoch_iff : o.authEpoch h = some e ↔ o h = some (.effective e) := by
  unfold authEpoch
  cases o h with
  | none => simp
  | some x => cases x <;> simp [Outcome.authEpoch]

theorem isEffective_insert (x : Outcome) :
    (o.insert h x).isEffective k = if k = h then x.isEffective else o.isEffective k := by
  unfold Outcomes.isEffective
  by_cases hk : k = h
  · subst hk
    simp [insert_self]
  · simp [insert_of_ne hk, hk]

theorem mem_effectiveOf :
    c ∈ effectiveOf cs o ↔ c ∈ cs ∧ o.isEffective c.hash = true := mem_filter

/-! ## 2. Settling -/

theorem replacement_not_effective {start : Outcomes} (h : replacement cs start o c = some x) :
    x.isEffective = false := by
  unfold replacement orphanOutcome at h
  repeat' split at h
  all_goals cases h
  all_goals rfl

theorem sweep_rule (I : Outcomes × Bool → Prop) {start : Outcomes}
    (hfall : ∀ s c x, c ∈ cs → I s → s.1.isEffective c.hash = true → replacement cs start s.1 c = some x →
      I (s.1.insert c.hash x, true)) (hI : I (start, false)) : I (cs.foldl (settleStep cs start) (start, false)) := by
  refine List.foldlRecOn (motive := I) cs (settleStep cs start) hI fun s hs c hc => ?_
  unfold settleStep
  cases heff : s.1.isEffective c.hash with
  | false => exact hs
  | true =>
    cases hrep : replacement cs start s.1 c with
    | none => exact hs
    | some x => exact hfall s c x hc hs heff hrep

theorem sweep_falls (start : Outcomes) :
    (∀ h, (cs.foldl (settleStep cs start) (start, false)).1.isEffective h = true → start.isEffective h = true) ∧
      ((cs.foldl (settleStep cs start) (start, false)).2 = true → ∃ c ∈ cs, start.isEffective c.hash = true ∧
        (cs.foldl (settleStep cs start) (start, false)).1.isEffective c.hash = false) := by
  refine sweep_rule (fun s => (∀ h, s.1.isEffective h = true → start.isEffective h = true) ∧ (s.2 = true → ∃ c ∈ cs,
    start.isEffective c.hash = true ∧ s.1.isEffective c.hash = false))
    (fun s c x hc hs heff hrep => ⟨fun h hh => ?_, fun _ => ⟨c, hc, hs.1 _ heff, ?_⟩⟩) ⟨fun _ hh => hh, nofun⟩
  · rw [isEffective_insert] at hh
    split at hh
    · rw [replacement_not_effective hrep] at hh
      cases hh
    · exact hs.1 h hh
  · rw [isEffective_insert, if_pos rfl, replacement_not_effective hrep]

theorem settle_isSome (cs : List Candidate) (o : Outcomes) : (loop (settleTurn cs) (cs.length + 1) o).isSome := by
  refine loop_isSome (fun _ => True) (fun o => (effectiveOf cs o).length) (fun s s' _ hgo => ⟨trivial, ?_⟩) trivial
    (Nat.lt_succ_of_le (length_filter_le _ _))
  obtain ⟨hshrinks, hfell⟩ := @sweep_falls cs s
  unfold settleTurn at hgo
  dsimp only at hgo
  split at hgo
  · rename_i hagain
    cases hgo
    obtain ⟨c, hc, hwas, hfalls⟩ := hfell hagain
    exact length_filter_lt (fun b => hshrinks b.hash) hc hwas hfalls
  · cases hgo

/-- **The rule of the settlement**: what the fall of an effective entry without its prerequisite
    preserves. -/
theorem settle_rule (I : Outcomes → Prop)
    (hfall : ∀ start o c x, c ∈ cs → I start → I o → o.isEffective c.hash = true →
      replacement cs start o c = some x → I (o.insert c.hash x)) (hI : I o) :
    I (settleAuthorityDependencies cs o) := by
  have hturn : ∀ s t, I s → settleTurn cs s = t → t.elim I I := by
    rintro s t hs rfl
    have hsweep := sweep_rule (fun x => I x.1) (fun x c y hc => hfall s x.1 c y hc hs) hs
    unfold settleTurn
    dsimp only
    split
    · exact hsweep
    · exact hsweep
  obtain ⟨r, hrun⟩ := Option.isSome_iff_exists.mp (settle_isSome cs o)
  obtain ⟨t, ht, hleave⟩ := loop_rule I (fun s s' hs h => hturn s _ hs h) hI hrun
  rw [settleAuthorityDependencies, hrun]
  exact hturn t _ ht hleave

theorem settle_shrinks (heff : (settleAuthorityDependencies cs o).isEffective h = true) :
    o.isEffective h = true := by
  refine settle_rule (fun o' => ∀ h, o'.isEffective h = true → o.isEffective h = true)
    (fun start o' c x _ _ hI _ hrep k hk => ?_) (fun _ hk => hk) h heff
  rw [isEffective_insert] at hk
  split at hk
  · rw [replacement_not_effective hrep] at hk
    cases hk
  · exact hI k hk

/-! ## 3. Renumbering -/

theorem normalize_of_not_effective (hh : o.isEffective h = false) :
    (normalizeAuthEpochs cs o).2 h = o h := by
  refine insertAll_of_not_mem (fun x hx hkey => ?_) o
  have hmem := (mem_sorted id).mp (mem_of_getElem? (mem_zipIdx_iff_getElem?.mp hx))
  obtain ⟨c, -, hc⟩ := mem_filterMap.mp hmem
  obtain ⟨e, he, hx1⟩ := Option.map_eq_some_iff.mp hc
  have hhash : c.hash = h := by
    rw [← hkey, ← hx1]
    rfl
  have heff : o.isEffective h = true := isEffective_iff.mpr ⟨e, hhash ▸ he⟩
  rw [hh] at heff
  cases heff

theorem isEffective_normalize (h : EntryHash) :
    (normalizeAuthEpochs cs o).2.isEffective h = o.isEffective h := by
  cases heff : o.isEffective h with
  | false =>
    unfold Outcomes.isEffective at heff ⊢
    rw [normalize_of_not_effective heff, heff]
  | true =>
    -- what is inserted is effective, and what is not overwritten was
    refine insertAll_induction (fun x => x.any Outcome.isEffective = true) (fun x _ _ y hy => ?_) heff
    cases hy
    rfl

theorem of_normalize (hx : (normalizeAuthEpochs cs o).2 h = some x) (hne : x.isEffective = false) :
    o h = some x := by
  cases heff : o.isEffective h with
  | false => exact (normalize_of_not_effective heff).symm.trans hx
  | true =>
    have hnorm := (@isEffective_normalize cs o h).trans heff
    unfold Outcomes.isEffective at hnorm
    rw [hx, Option.any_some, hne] at hnorm
    cases hnorm

theorem effectiveOf_normalize : effectiveOf cs (normalizeAuthEpochs cs o).2 = effectiveOf cs o :=
  filter_congr fun c _ => by rw [isEffective_normalize]

theorem length_effectiveByEpoch : (normalizeAuthEpochs cs o).1 = (effectiveOf cs o).length := by
  have hlen : (effectiveByEpoch cs o).length =
      (cs.filterMap fun c => (o.authEpoch c.hash).map fun e => toLex (e, c.hash)).length :=
    (sorted_perm id _).length_eq
  refine hlen.trans ?_
  rw [length_filterMap_eq_countP, effectiveOf, ← countP_eq_length_filter]
  refine countP_congr fun c _ => ?_
  rw [Option.isSome_map]
  exact (Option.isSome_iff_exists.trans isEffective_iff.symm)

theorem normalize_epoch (hd : DistinctHashes cs) (hc : c ∈ cs) (he : o.authEpoch c.hash = some e) :
    ∃ n, (normalizeAuthEpochs cs o).2.authEpoch c.hash = some n ∧
      (effectiveByEpoch cs o)[n]? = some (toLex (e, c.hash)) := by
  have hkeys : ((effectiveByEpoch cs o).map fun x => (ofLex x).2).Nodup := by
    refine ((sorted_perm id _).map _).nodup_iff.mpr ?_
    rw [List.Nodup, pairwise_map, pairwise_filterMap]
    refine (pairwise_map.mp hd).imp fun hne x hx y hy => ?_
    obtain ⟨_, -, rfl⟩ := Option.map_eq_some_iff.mp hx
    obtain ⟨_, -, rfl⟩ := Option.map_eq_some_iff.mp hy
    exact hne
  have hmem : toLex (e, c.hash) ∈ effectiveByEpoch cs o :=
    (mem_sorted id).mpr (mem_filterMap.mpr ⟨c, hc, by rw [he]; rfl⟩)
  obtain ⟨n, hn⟩ := mem_iff_getElem?.mp hmem
  refine ⟨n, Outcomes.authEpoch_iff.mpr ?_, hn⟩
  have hkeys' : ((effectiveByEpoch cs o).zipIdx.map fun x => (ofLex x.1).2).Nodup := by
    rw [← zipIdx_map_fst 0 (effectiveByEpoch cs o), map_map] at hkeys
    exact hkeys
  exact @insertAll_of_mem _ _ _ _ _ (fun x => some (Outcome.effective x.2)) (_, n) _ hkeys'
    (mem_zipIdx_iff_getElem?.mpr hn) o

theorem normalize_lt (hd : DistinctHashes cs) (hc : c ∈ cs) (hb : b ∈ cs) {e' n n' : Nat}
    (he : o.authEpoch c.hash = some e) (he' : o.authEpoch b.hash = some e') (hlt : e < e')
    (hn : (normalizeAuthEpochs cs o).2.authEpoch c.hash = some n)
    (hn' : (normalizeAuthEpochs cs o).2.authEpoch b.hash = some n') : n < n' := by
  obtain ⟨i, hi, hat⟩ := normalize_epoch hd hc he
  obtain ⟨j, hj, hat'⟩ := normalize_epoch hd hb he'
  obtain rfl := Option.some.inj (hn.symm.trans hi)
  obtain rfl := Option.some.inj (hn'.symm.trans hj)
  by_contra hge
  obtain ⟨hjn, hx'⟩ := List.getElem?_eq_some_iff.mp hat'
  obtain ⟨hin, hx⟩ := List.getElem?_eq_some_iff.mp hat
  rcases (not_lt.mp hge).lt_or_eq with hji | rfl
  · have hsorted : (effectiveByEpoch cs o).Pairwise (· ≤ ·) := pairwise_sorted id _
    have hle := pairwise_iff_getElem.mp hsorted n' n hjn hin hji
    rw [hx, hx', Prod.Lex.toLex_le_toLex] at hle
    omega
  · cases Prod.mk.inj (hx'.symm.trans hx)
    omega

/-! ## 4. Rounds -/

section Close

variable {ahead : List Candidate} {credits : EntryHash → Option Nat}

/-- The outcomes a round measures against. -/
def settledOf (cs : List Candidate) (o : Outcomes) : Nat × Outcomes :=
  normalizeAuthEpochs cs (settleAuthorityDependencies cs o)

/-- The entries a round finds ahead. -/
def roundAhead (cs : List Candidate) (credits : EntryHash → Option Nat) (o : Outcomes) : List Candidate :=
  aheadOf cs credits o (settledOf cs o).2 (settledOf cs o).1

theorem settledOf_shrinks (heff : (settledOf cs o).2.isEffective h = true) : o.isEffective h = true :=
  settle_shrinks ((isEffective_normalize h).symm.trans heff)

theorem parkAhead_of_mem (hc : c ∈ ahead) (o : Outcomes) :
    parkAhead ahead o c.hash = some (.parked .authLenAhead) := by
  induction ahead generalizing o with
  | nil => cases hc
  | cons a rest ih =>
    by_cases hmem : c ∈ rest
    · exact ih hmem _
    obtain rfl : c = a := (mem_cons.mp hc).resolve_right hmem
    rw [parkAhead, insertAll_cons]
    refine insertAll_induction (fun x => x = some (Outcome.parked .authLenAhead))
      (fun _ _ _ y hy => hy.symm) ?_
    rw [put_self]
    rfl

theorem parkAhead_cases (hx : parkAhead ahead o h = some x) :
    o h = some x ∨ ∃ c ∈ ahead, c.hash = h ∧ x = .parked .authLenAhead := by
  rcases insertAll_cases hx with hold | ⟨c, hc, hkey, hval⟩
  · exact Or.inl hold
  · exact Or.inr ⟨c, hc, hkey, (Option.some.inj hval).symm⟩

theorem parkAhead_isSome (ahead : List Candidate) (hh : (o h).isSome) :
    (parkAhead ahead o h).isSome :=
  insertAll_induction (fun x => x.isSome) (fun _ _ _ _ _ => rfl) hh

theorem isEffective_parkAhead (heff : (parkAhead ahead o).isEffective h = true) :
    o.isEffective h = true ∧ ∀ c ∈ ahead, c.hash ≠ h := by
  obtain ⟨e, he⟩ := isEffective_iff.mp heff
  rw [authEpoch_iff] at he
  refine ⟨?_, fun c hc hch => ?_⟩
  · rcases parkAhead_cases he with hold | ⟨c, -, -, hx⟩
    · exact isEffective_iff.mpr ⟨e, authEpoch_iff.mpr hold⟩
    · cases hx
  · subst hch
    rw [parkAhead_of_mem hc] at he
    cases he

theorem round_decreases (hne : roundAhead cs credits o ≠ []) :
    (effectiveOf cs (parkAhead (roundAhead cs credits o) (settledOf cs o).2)).length <
      (effectiveOf cs o).length := by
  obtain ⟨c, hc⟩ := exists_mem_of_ne_nil _ hne
  obtain ⟨hcs, heff⟩ := mem_effectiveOf.mp (mem_of_mem_filter hc)
  have hfilter : effectiveOf cs (parkAhead (roundAhead cs credits o) (settledOf cs o).2) =
      (effectiveOf cs o).filter fun x =>
        (parkAhead (roundAhead cs credits o) (settledOf cs o).2).isEffective x.hash := by
    unfold effectiveOf
    rw [filter_filter]
    refine filter_congr fun x _ => ?_
    cases hx : (parkAhead (roundAhead cs credits o) (settledOf cs o).2).isEffective x.hash with
    | false => rfl
    | true => rw [settledOf_shrinks (isEffective_parkAhead hx).1, Bool.and_self]
  rw [hfilter, length_filter_lt_length_iff_exists]
  exact ⟨c, mem_effectiveOf.mpr ⟨hcs, heff⟩, fun hx => (isEffective_parkAhead hx).2 c hc rfl⟩

/-- **The rule of the closing**: the rounds end, and what a round preserves holds of the outcomes they end
    on. -/
theorem close_ends (I : Outcomes × Outcomes → Prop)
    (hround : ∀ s, I s → roundAhead cs credits s.1 ≠ [] →
      I (parkAhead (roundAhead cs credits s.1) (settledOf cs s.1).2,
        parkAhead (roundAhead cs credits s.1) s.2)) (hI : I (o, fun _ => none)) :
    ∃ s, I s ∧ loop (closeTurn cs credits) (cs.length + 1) (o, fun _ => none) = some ((settledOf cs s.1).2, s.2) := by
  have hturn : ∀ s, I s → closeTurn cs credits s = .inr ((settledOf cs s.1).2, s.2) ∨
      ∃ s', closeTurn cs credits s = .inl s' ∧ I s' ∧
        (effectiveOf cs s'.1).length < (effectiveOf cs s.1).length := by
    intro s hs
    by_cases hempty : roundAhead cs credits s.1 = []
    · exact Or.inl (if_pos (isEmpty_iff.mpr hempty))
    · exact Or.inr ⟨_, if_neg fun h => hempty (isEmpty_iff.mp h),
        hround s hs hempty, round_decreases hempty⟩
  exact loop_ends I _ _ hturn hI (Nat.lt_succ_of_le (length_filter_le _ _))

theorem close_rule (I : Outcomes × Outcomes → Prop)
    (hround : ∀ s, I s → roundAhead cs credits s.1 ≠ [] →
      I (parkAhead (roundAhead cs credits s.1) (settledOf cs s.1).2,
        parkAhead (roundAhead cs credits s.1) s.2)) (hI : I (o, fun _ => none)) :
    ∃ s, I s ∧ closeFinalAuthorityDependencies cs credits o = ((settledOf cs s.1).2, s.2) := by
  obtain ⟨s, hs, hrun⟩ := close_ends I hround hI
  exact ⟨s, hs, by rw [closeFinalAuthorityDependencies, hrun, Option.getD_some]⟩

/-! ## 5. What an entry may cite -/

/-- The effective entries beside one. -/
def othersOf (cs : List Candidate) (o : Outcomes) (c : Candidate) : Nat :=
  (effectiveOf cs o).countP fun b => b.hash ≠ c.hash

/-- How long a control log an entry may cite: the others, its credit, and what is vouched for it. -/
def allowance (table : VouchTable) (c : Candidate) (base credit : Nat) : Nat :=
  saturatingAdd (saturatingAdd base credit) (concurrentVouch table c base)

theorem citedAhead_iff {table : VouchTable} :
    citedAhead table c base credit = true ↔ allowance table c base credit < c.header.authLen := by
  unfold citedAhead allowance saturatingAdd
  simp only [gt_iff_lt, Bool.and_eq_true, decide_eq_true_eq]
  omega

theorem allowance_mono {table : VouchTable} {base' : Nat} (h : base ≤ base') :
    allowance table c base credit ≤ allowance table c base' credit := by
  unfold allowance saturatingAdd concurrentVouch
  generalize 2 ^ 64 - 1 = top
  split <;> omega

theorem othersOf_of_effective (hd : DistinctHashes cs) (hc : c ∈ cs)
    (heff : o.isEffective c.hash = true) : othersOf cs o c = (effectiveOf cs o).length - 1 := by
  have hnd : ((effectiveOf cs o).map Candidate.hash).Nodup := hd.sublist (filter_sublist.map _)
  have hothers : othersOf cs o c =
      (((effectiveOf cs o).map Candidate.hash).filter (· != c.hash)).length := by
    rw [← countP_eq_length_filter, countP_map]
    exact countP_congr fun b _ => by simp
  rw [hothers, ← hnd.erase_eq_filter,
    length_erase_of_mem (mem_map_of_mem (mem_effectiveOf.mpr ⟨hc, heff⟩)), length_map]

theorem othersOf_of_not_effective (heff : o.isEffective c.hash = false) :
    othersOf cs o c = (effectiveOf cs o).length := by
  refine countP_eq_length.mpr fun b hb => ?_
  have hb' := (mem_effectiveOf.mp hb).2
  refine decide_eq_true fun hbc => ?_
  rw [hbc, heff] at hb'
  cases hb'

theorem settledOf_count : (settledOf cs o).1 = (effectiveOf cs (settledOf cs o).2).length := by
  unfold settledOf
  rw [effectiveOf_normalize, length_effectiveByEpoch]

theorem vouchTable_normalize :
    vouchTable cs credits (normalizeAuthEpochs cs o).2 = vouchTable cs credits o := by
  unfold vouchTable
  rw [effectiveOf_normalize]

/-- **What a round finds ahead**: it cites more than it may beside the others of the settled outcomes. -/
theorem mem_roundAhead (hd : DistinctHashes cs) (h : c ∈ roundAhead cs credits o) :
    c ∈ cs ∧ allowance (vouchTable cs credits (settledOf cs o).2) c (othersOf cs (settledOf cs o).2 c)
      ((credits c.hash).getD 0) < c.header.authLen := by
  obtain ⟨hmem, hahead⟩ := mem_filter.mp h
  have hc := (mem_effectiveOf.mp hmem).1
  refine ⟨hc, ?_⟩
  rw [citedAhead_iff, settledOf_count] at hahead
  cases heff : (settledOf cs o).2.isEffective c.hash with
  | true =>
    rw [othersOf_of_effective hd hc heff]
    simpa [heff] using hahead
  | false =>
    rw [othersOf_of_not_effective heff]
    simpa [heff] using hahead

end Close

end RagRat.Account
