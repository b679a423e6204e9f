/-
  File:      RagRat/Account/Readiness.lean
  Subject:   WHO IS PARKED AS AUTHORED AHEAD.

  A pass of the fold parks an entry that cites more control log than there is, holds it out, and runs again.
  What was found ahead stays held out, also where a later pass counts more effective entries than the one that
  found it: the parking is true of the round that made it (`authLenAhead_found`), not always of the final
  outcomes (`parked_behind_final_count`).

  * `ClosingRound`, `PassReached` -- the rounds of a closing and the passes of a fold.
  * `FoundAhead` -- a round measured an entry and found it ahead.
  * `Unlaundered` -- what a pass keeps about the entries it holds out: none of them is live, none that cites
    one is effective.
-/
import RagRat.Account.Verdicts
import RagRat.Account.Closing

namespace RagRat.Account

open List
open Lib.Register Lib.Keyed Lib.Loop
open Lib.Cbor (Bytes)
open Incarnations Option Outcomes VerifiedAccountEntry

variable {c genesis : Candidate} {sha256 : Bytes → Bytes32} {cs : List Candidate}
  {ctx : FoldContext} {ex o o' : Outcomes} {x : Outcome} {id a : OwnerId} {g h : EntryHash}
  {r : PassResult}

/-! ## 1. Passes and rounds -/

section

variable (entries : List VerifiedAccountEntry)

/-- The candidates of the entries. -/
def candidatesOf : List Candidate :=
  (dedupByHash [] entries).filterMap candidate

/-- What the stages of a pass over a rooted account read. -/
def contextOf (genesis : Candidate) : FoldContext :=
  ⟨⟨candidatesOf entries, genesis.hash⟩, headersOf (dedupByHash [] entries)⟩

/-- What the pass decides before its closing. -/
def decidedOf (genesis : Candidate) (exclusions : Outcomes) : Decided :=
  decidePass (contextOf entries genesis) genesis.subjectDevice exclusions
    (readOutcomes (dedupByHash [] entries))

/-- The credits the pass measures with. -/
def creditsIn (genesis : Candidate) (exclusions : Outcomes) :
    EntryHash → Option Nat :=
  creditsOf (contextOf entries genesis)
    (strataOf exclusions (contextOf entries genesis).incarnations genesis.subjectDevice)
    (decidedOf entries genesis exclusions).pass.registerContributors
    (decidedOf entries genesis exclusions).outcomes

end

section Rounds

variable (sha256 : Bytes → Bytes32) (entries : List VerifiedAccountEntry)

/-- The exclusions of the passes of a fold. -/
inductive PassReached : Outcomes → Prop where
  | first : PassReached fun _ => none
  | next {exclusions exclusions' : Outcomes} (h : PassReached exclusions)
      (hturn : foldTurn sha256 entries exclusions = .inl exclusions') : PassReached exclusions'

/-- The outcomes the rounds of a closing begin with. -/
inductive ClosingRound (cs : List Candidate) (credits : EntryHash → Option Nat) (start : Outcomes) :
    Outcomes → Prop where
  | first : ClosingRound cs credits start start
  | next {o : Outcomes} (h : ClosingRound cs credits start o) :
      ClosingRound cs credits start (parkAhead (roundAhead cs credits o) (settledOf cs o).2)

/-- The entry cites more than the other effective entries, its credit and what is vouched for it. -/
def AheadIn (cs : List Candidate) (credits : EntryHash → Option Nat) (start : Outcomes) (c : Candidate) :
    Prop :=
  ∃ o, ClosingRound cs credits start o ∧
    allowance (vouchTable cs credits (settledOf cs o).2) c (othersOf cs (settledOf cs o).2 c)
      ((credits c.hash).getD 0) < c.header.authLen

/-- A pass that did not hold the entry out found it ahead in a round of its closing. -/
def FoundAhead (h : EntryHash) : Prop :=
  ∃ exclusions genesis c, PassReached sha256 entries exclusions ∧ exclusions h = none ∧
    findGenesis sha256 (candidatesOf entries) = some genesis ∧ c ∈ candidatesOf entries ∧ c.hash = h ∧
    AheadIn (candidatesOf entries) (creditsIn entries genesis exclusions)
      (decidedOf entries genesis exclusions).outcomes c

end Rounds

/-! ## 2. The entries of a fold -/

theorem dedupByHash_spec (seen : List EntryHash) (entries : List VerifiedAccountEntry) :
    ((dedupByHash seen entries).map entryHash).Nodup ∧
      ∀ e ∈ dedupByHash seen entries, e ∈ entries ∧ e.entryHash ∉ seen := by
  induction entries generalizing seen with
  | nil => exact ⟨nodup_nil, nofun⟩
  | cons e rest ih =>
    unfold dedupByHash
    split
    · exact ⟨(ih seen).1, fun x hx => ⟨mem_cons_of_mem e ((ih seen).2 x hx).1, ((ih seen).2 x hx).2⟩⟩
    rename_i hnew
    obtain ⟨hnd, hmem⟩ := ih (e.entryHash :: seen)
    refine ⟨nodup_cons.mpr ⟨fun hdup => ?_, hnd⟩, fun x hx => ?_⟩
    · obtain ⟨x, hx, hxe⟩ := mem_map.mp hdup
      exact (hmem x hx).2 (hxe ▸ mem_cons_self)
    · rcases mem_cons.mp hx with rfl | hx
      · exact ⟨mem_cons_self, hnew⟩
      · exact ⟨mem_cons_of_mem e (hmem x hx).1, fun hs => (hmem x hx).2 (mem_cons_of_mem _ hs)⟩

theorem candidate_entry {e : VerifiedAccountEntry} (h : e.candidate = some c) : c.entry = e := by
  unfold VerifiedAccountEntry.candidate at h
  repeat' split at h
  all_goals cases h
  rfl

theorem candidatesOf_distinct (entries : List VerifiedAccountEntry) :
    DistinctHashes (candidatesOf entries) := by
  have hnd := (dedupByHash_spec [] entries).1
  have hsub : ((candidatesOf entries).map Candidate.hash).Sublist
      ((dedupByHash [] entries).map entryHash) := by
    unfold candidatesOf
    generalize dedupByHash [] entries = held
    induction held with
    | nil => exact List.Sublist.refl _
    | cons e rest ih =>
      cases he : e.candidate with
      | none => simpa [he] using ih.cons _
      | some c =>
        have hhash : c.hash = e.entryHash := congrArg _ (candidate_entry he)
        simpa [he, hhash] using ih
  exact hnd.sublist hsub

theorem mem_candidatesOf {entries : List VerifiedAccountEntry} (hc : c ∈ candidatesOf entries) :
    c.entry ∈ entries := by
  obtain ⟨e, he, hcand⟩ := mem_filterMap.mp hc
  rw [candidate_entry hcand]
  exact ((dedupByHash_spec [] entries).2 e he).1

theorem findGenesis_spec (h : findGenesis sha256 cs = some genesis) :
    genesis ∈ cs ∧ isRoot sha256 genesis = true := by
  have hmem := (mem_sorted Candidate.hash).mp (mem_of_mem_head? h)
  exact mem_filter.mp hmem

/-! ## 3. What a pass keeps of the entries it holds out -/

section Unlaundered

variable {s : FoldState × Outcomes} {state : FoldState} {v : FoldVerdicts} {inc : Incarnations}
  {founder : DeviceFingerprint}

/-- Only entries held out are parked as ahead; none is live, and no effective entry cites one. -/
structure Unlaundered (ctx : FoldContext) (ex : Outcomes) (s : FoldState × Outcomes) : Prop where
  ahead : ∀ h, s.2 h = some (.parked .authLenAhead) → (ex h).isSome
  live : ∀ id ∈ s.1.live, ex id = none ∧ (id = ctx.rootId ∨
    ∃ m ∈ ctx.candidates, m.hash = id ∧ ∀ pubkey, m.op ≠ .accountGenesis pubkey)
  cites : ∀ c ∈ ctx.candidates, s.2.isEffective c.hash = true →
    ∀ a, c.header.authorityRef = some a → ex a = none

/-- A genesis that cites nothing, at the start of its chain. -/
structure Candidate.IsGenesis (c : Candidate) : Prop where
  op : ∃ pubkey, c.op = .accountGenesis pubkey
  authorityRef : c.header.authorityRef = none
  authLen : c.header.authLen = 0
  seq : c.header.seq = 0
  payload : c.entry.payloadAccountId = c.header.accountId

/-- The candidates of a rooted account: the one under the genesis' id is a genesis. -/
structure Rooted (ctx : FoldContext) : Prop where
  distinct : DistinctHashes ctx.candidates
  root : ∀ c ∈ ctx.candidates, c.hash = ctx.rootId → c.IsGenesis

theorem Rooted.uncut (hr : Rooted ctx) (hc : c ∈ ctx.candidates)
    (h : c.hash = ctx.rootId) :
    cutOpRegisters c = [] ∧ cutExtendRegister c = none := by
  obtain ⟨pubkey, hop⟩ := (hr.root c hc h).op
  simp [cutOpRegisters, cutExtendRegister, hop]

theorem Unlaundered.insert (h : Unlaundered ctx ex s) (hd : DistinctHashes ctx.candidates)
    (hc : c ∈ ctx.candidates) (hahead : x = .parked .authLenAhead → (ex c.hash).isSome)
    (heff : x.isEffective = true → ∀ a, c.header.authorityRef = some a → ex a = none) :
    Unlaundered ctx ex (s.1, s.2.insert c.hash x) where
  ahead k hk := by
    dsimp only at hk
    rcases eq_or_ne k c.hash with rfl | hne
    · rw [insert_self] at hk
      exact hahead (some.inj hk)
    · rw [insert_of_ne hne] at hk
      exact h.ahead k hk
  live := h.live
  cites b hb hbe a ha := by
    rw [isEffective_insert] at hbe
    split at hbe
    · rename_i hbc
      obtain rfl := hd.eq_of_hash hb hc hbc
      exact heff hbe a ha
    · exact h.cites b hb hbe a ha

theorem Unlaundered.refuse (h : Unlaundered ctx ex (state, o))
    (hval : ∀ k x, o' k = some x → o k = some x ∨ x.isRefusal = true) :
    Unlaundered ctx ex (state, o') where
  ahead k hk := by
    rcases hval k _ hk with hold | hno
    · exact h.ahead k hold
    · cases hno
  live := h.live
  cites c hc heff := by
    obtain ⟨e, he⟩ := isEffective_iff.mp heff
    rcases hval _ _ (authEpoch_iff.mp he) with hold | hno
    · exact h.cites c hc (isEffective_iff.mpr ⟨e, authEpoch_iff.mpr hold⟩)
    · cases hno

theorem live_enact : id ∈ (state.enact c).live ↔ id ∈ state.live ∨ id = c.hash ∧ c.isMint = true := by
  unfold FoldState.enact applyEffect FoldState.takeEpoch Candidate.isMint
  cases hop : c.op with
  | deviceAdd d role => by_cases hrole : role = .owner <;> simp [hrole, or_comm]
  | ownerDemote d id' cc sc =>
    dsimp only
    split <;> simp
  | _ => simp [or_comm]

theorem live_of_author (hid : authorIncarnationId c = some id) (ha : c.header.authorityRef = some a) :
    a = id ∨ ∃ pubkey, c.op = .accountGenesis pubkey ∧ c.hash = id := by
  unfold authorIncarnationId at hid
  split at hid
  · rename_i pubkey hop
    exact Or.inr ⟨pubkey, hop, some.inj hid⟩
  · exact Or.inl (some.inj (ha.symm.trans hid))

theorem Unlaundered.cited (h : Unlaundered ctx ex s) (hr : Rooted ctx) (hc : c ∈ ctx.candidates)
    (hid : authorIncarnationId c = some id) (hlive : id ∈ s.1.live)
    (ha : c.header.authorityRef = some a) : ex a = none := by
  rcases live_of_author hid ha with rfl | ⟨pubkey, hop, rfl⟩
  · exact (h.live a hlive).1
  rcases (h.live c.hash hlive).2 with hroot | ⟨m, hm, hmc, hop'⟩
  · rw [(hr.root c hc hroot).authorityRef] at ha
    cases ha
  · obtain rfl := hr.distinct.eq_of_hash hm hc hmc
    exact absurd hop (hop' pubkey)

theorem Unlaundered.effectStep (hv : v.Refuses g) (hr : Rooted ctx) (h : Unlaundered ctx ex s)
    (hc : c ∈ ctx.candidates) (hfree : ex c.hash = none) :
    Unlaundered ctx ex (effectStep ctx.incarnations v s c) := by
  rcases @effectStep_cases g v s.1 ctx.incarnations hv s.2 c with ⟨x, hx, heq⟩ | ⟨henact, heq⟩
  · rw [heq]
    refine h.insert hr.distinct hc (fun hahead => ?_) fun heff => ?_
    · subst hahead
      cases hx
    · cases x <;> cases heff
      cases hx
  · rw [heq]
    obtain ⟨id, mint, hid, -, -, hlive⟩ := henact.author
    have hins := h.insert (x := .effective s.1.nextAuthEpoch) hr.distinct hc nofun
      fun _ a ha => h.cited hr hc hid hlive ha
    refine ⟨hins.ahead, fun k hk => ?_, hins.cites⟩
    rcases live_enact.mp hk with hold | ⟨rfl, -⟩
    · exact h.live k hold
    refine ⟨hfree, ?_⟩
    -- a genesis acts under its own id, which is then live already
    by_cases hgen : ∃ pubkey, c.op = .accountGenesis pubkey
    · obtain ⟨pubkey, hop⟩ := hgen
      have hself : id = c.hash := by
        unfold authorIncarnationId at hid
        rw [hop] at hid
        exact (some.inj hid).symm
      exact (h.live c.hash (hself ▸ hlive)).2
    · exact Or.inr ⟨c, hc, rfl, fun pubkey hop => hgen ⟨pubkey, hop⟩⟩

theorem heldOut_cases (h : heldOut ex inc founder c = some x) :
    ex c.hash = some x ∨ x = .rejected .nonGenesisOrigin ∨ x = .parked .unknownOwnerRef := by
  unfold heldOut at h
  repeat' split at h
  · exact Or.inl h
  · exact Or.inr (Or.inl (some.inj h).symm)
  · exact Or.inr (Or.inr (some.inj h).symm)
  · cases h

theorem heldOut_refuses (hread : ∀ h x, o h = some x → x.isRefusal = true)
    (hx : insertAll Candidate.hash (heldOut ex inc founder) cs o h = some x) :
    ex h = some x ∨ x.isRefusal = true := by
  rcases insertAll_cases hx with hold | ⟨c, -, rfl, hheld⟩
  · exact Or.inr (hread h x hold)
  · rcases heldOut_cases hheld with hc | rfl | rfl
    · exact Or.inl hc
    · exact Or.inr rfl
    · exact Or.inr rfl

theorem overlay_refuses (hv : v.Refuses g) (hx : overlayVerdicts cs v o h = some x) :
    o h = some x ∨ x.isRefusal = true := by
  rcases insertAll_cases hx with hold | ⟨c, -, -, hval⟩
  · exact Or.inl hold
  refine Or.inr ?_
  unfold overlayOutcome at hval
  rcases or_eq_some_iff.mp hval with hcond | ⟨-, hpark⟩
  · obtain ⟨r, -, rfl⟩ := map_eq_some_iff.mp hcond
    rfl
  · obtain ⟨r, hr, rfl⟩ := map_eq_some_iff.mp hpark
    exact Outcome.parked_isRefusal fun hahead => hv.parked _ (hahead ▸ hr)

theorem mem_strataOf {x : Nat × List Candidate} (hx : x ∈ strataOf ex inc founder) (hc : c ∈ x.2) :
    c ∈ inc.candidates ∧ heldOut ex inc founder c = none ∧ inc.authorDepth c = some x.1 := by
  obtain ⟨hx, -⟩ := mem_filter.mp hx
  obtain ⟨d, -, rfl⟩ := mem_map.mp hx
  obtain ⟨hc, hmem⟩ := mem_filter.mp hc
  simp only [decide_eq_true_eq, isNone_iff_eq_none] at hmem
  exact ⟨hc, hmem.1, hmem.2⟩

theorem Rooted.stratified (hr : Rooted ctx) : Stratified ctx (strataOf ex ctx.incarnations founder) where
  distinct := hr.distinct
  members _ hx _ hc := (mem_strataOf hx hc).1
  uncut _ hx _ hc := hr.uncut (mem_strataOf hx hc).1

theorem not_excluded_of_heldOut (h : heldOut ex inc founder c = none) : ex c.hash = none := by
  unfold heldOut at h
  by_cases hex : (ex c.hash).isSome
  · rw [if_pos hex] at h
    rw [h]
  · simpa using hex

theorem Unlaundered.contested (hr : Rooted ctx) (h : Unlaundered ctx ex s) :
    Unlaundered ctx ex (s.1, contestedOutcomes ctx v s) := by
  have hcited : ∀ c ∈ ctx.candidates, admitsReRoot ctx.incarnations s.1 v c = true →
      ∀ a, c.header.authorityRef = some a → ex a = none := by
    intro c hc hopen a ha
    simp only [admitsReRoot, Bool.and_eq_true, decide_eq_true_eq] at hopen
    obtain ⟨id, -, hid, -, -, hlive⟩ := authorityStatus_live_iff.mp hopen.1.2
    exact h.cited hr hc hid hlive ha
  have hreroots : ∀ l : List Candidate,
      (∀ c ∈ l, c ∈ ctx.candidates ∧ admitsReRoot ctx.incarnations s.1 v c = true) →
      Unlaundered ctx ex (s.1, (l.foldl reRootStep s).2) := by
    intro l hl
    suffices hrun : Unlaundered ctx ex (l.foldl reRootStep s) from ⟨hrun.ahead, h.live, hrun.cites⟩
    refine List.foldlRecOn l reRootStep h fun t ht c hc => ?_
    have hins := ht.insert (x := t.1.takeEpoch.1) hr.distinct (hl c hc).1 nofun
      fun _ => hcited c (hl c hc).1 (hl c hc).2
    exact ⟨hins.ahead, ht.live, hins.cites⟩
  refine (hreroots _ fun c hc => mem_filter.mp ((mem_sorted Candidate.reRootRank).mp hc)).refuse
    fun k x hx => ?_
  rcases insertAll_cases hx with hold | ⟨c, -, rfl, hval⟩
  · exact Or.inl hold
  obtain rfl := some.inj hval
  cases hdec : ((sorted Candidate.reRootRank (ctx.candidates.filter
      (admitsReRoot ctx.incarnations s.1 v))).foldl reRootStep s).2 c.hash with
  | none => exact Or.inr rfl
  | some y => exact Or.inl rfl

/-- **A decided pass launders nothing**: what it held out stays without effect on anyone. -/
theorem decidePass_unlaundered (hr : Rooted ctx) (hread : ∀ h x, o h = some x → x.isRefusal = true)
    (hex : ∀ h x, ex h = some x → x = .parked .authLenAhead)
    (hgenesis : ex ctx.rootId = none) :
    Unlaundered ctx ex ((decidePass ctx founder ex o).state, (decidePass ctx founder ex o).outcomes) := by
  have hstart : Unlaundered ctx ex (FoldState.seeded ctx.rootId,
      insertAll Candidate.hash (heldOut ex ctx.incarnations founder) ctx.candidates o) := by
    refine ⟨fun h hh => ?_, fun id hid => ?_, fun c _ heff => ?_⟩
    · rcases heldOut_refuses hread hh with hc | hno
      · rw [hc]
        rfl
      · cases hno
    · obtain rfl := Finset.mem_singleton.mp hid
      exact ⟨hgenesis, Or.inl rfl⟩
    · obtain ⟨e, he⟩ := isEffective_iff.mp heff
      rcases heldOut_refuses hread (authEpoch_iff.mp he) with hc | hno
      · cases hex _ _ hc
      · cases hno
  have hmember : ∀ x ∈ strataOf ex ctx.incarnations founder, ∀ c ∈ x.2,
      c ∈ ctx.candidates ∧ ex c.hash = none := fun x hx c hc =>
    ⟨(mem_strataOf hx hc).1, not_excluded_of_heldOut (mem_strataOf hx hc).2.1⟩
  obtain ⟨hrefuse, -, hfolded⟩ := foldDepths_rule (Unlaundered ctx ex)
    (fun state o' c h => ⟨h.ahead, fun id hid => h.live id (Finset.mem_of_mem_erase hid), h.cites⟩) hr.stratified
    (fun v s hv x hx c hc h => h.effectStep hv hr (hmember x hx c hc).1 (hmember x hx c hc).2)
    (s := ({ state := FoldState.seeded ctx.rootId },
      insertAll Candidate.hash (heldOut ex ctx.incarnations founder) ctx.candidates o))
    (refuses_start _) (derived_start ctx _) hstart
  unfold decidePass
  dsimp only
  generalize foldDepths ctx (strataOf ex ctx.incarnations founder) _ = depths at hrefuse hfolded ⊢
  have hreplayed : Unlaundered ctx ex (replayEffectState ctx (strataOf ex ctx.incarnations founder)
      depths.1.classification depths.1.verdicts depths.2) := by
    refine List.foldlRecOn _ _ ⟨hfolded.ahead, hstart.live, hfolded.cites⟩ fun s hs x hx => ?_
    have hx' := (takeWhile_sublist _).subset hx
    exact effectPass_rule (Unlaundered ctx ex) (fun c hc s hs =>
      hs.effectStep hrefuse hr (hmember x hx' c hc).1 (hmember x hx' c hc).2) hs
  generalize replayEffectState ctx _ _ _ _ = replayed at hreplayed ⊢
  have hoverlaid : Unlaundered ctx ex
      (replayed.1, overlayVerdicts ctx.candidates depths.1.verdicts replayed.2) :=
    hreplayed.refuse fun k x hx => overlay_refuses hrefuse hx
  split
  · exact hoverlaid
  · exact hoverlaid.contested hr

/-! ## 4. The closing -/

theorem Unlaundered.settled (hr : Rooted ctx) (h : Unlaundered ctx ex (state, o)) :
    Unlaundered ctx ex (state, (settledOf ctx.candidates o).2) := by
  have hsettle : Unlaundered ctx ex (state, settleAuthorityDependencies ctx.candidates o) := by
    refine settle_rule (fun o => Unlaundered ctx ex (state, o))
      (fun start o' c x hc _ hI heff hrep => ?_) h
    refine hI.insert hr.distinct hc (fun hahead => ?_) fun hx => ?_
    · -- an orphan is parked as its authorizer is, which would have to be held out
      subst hahead
      exfalso
      unfold replacement at hrep
      split at hrep
      · cases href : c.header.authorityRef with
        | none => simp [href, orphanOutcome] at hrep
        | some a =>
          have hfree := hI.cites c hc heff a href
          simp only [href, bind_some, some.injEq] at hrep
          unfold orphanOutcome at hrep
          split at hrep
          · rename_i r hpark
            cases hrep
            have hheld := hI.ahead a hpark
            rw [hfree] at hheld
            cases hheld
          · cases hrep
      · split at hrep <;> cases hrep
    · rw [replacement_not_effective hrep] at hx
      cases hx
  refine ⟨fun k hk => ?_, h.live, fun c hc heff => ?_⟩
  · exact hsettle.ahead k (of_normalize hk rfl)
  · exact hsettle.cites c hc ((isEffective_normalize c.hash).symm.trans heff)

theorem close_unlaundered (hr : Rooted ctx) (h : Unlaundered ctx ex (state, o))
    (credits : EntryHash → Option Nat) :
    (∃ c ∈ ctx.candidates, ex c.hash = none ∧
      ((closeFinalAuthorityDependencies ctx.candidates credits o).2 c.hash).isSome) ∨
      ∀ k, (closeFinalAuthorityDependencies ctx.candidates credits o).1 k = some (.parked .authLenAhead) →
        (ex k).isSome := by
  let I : Outcomes × Outcomes → Prop := fun s =>
    (∃ c ∈ ctx.candidates, ex c.hash = none ∧ (s.2 c.hash).isSome) ∨ Unlaundered ctx ex (state, s.1)
  have hround : ∀ s, I s → roundAhead ctx.candidates credits s.1 ≠ [] →
      I (parkAhead (roundAhead ctx.candidates credits s.1) (settledOf ctx.candidates s.1).2,
        parkAhead (roundAhead ctx.candidates credits s.1) s.2) := by
    rintro s (⟨c, hc, hfree, hfound⟩ | hu) -
    · exact Or.inl ⟨c, hc, hfree, parkAhead_isSome _ hfound⟩
    · by_cases hnew : ∃ c ∈ roundAhead ctx.candidates credits s.1, ex c.hash = none
      · obtain ⟨c, hc, hfree⟩ := hnew
        exact Or.inl ⟨c, (mem_roundAhead hr.distinct hc).1, hfree,
          isSome_of_eq_some (parkAhead_of_mem hc s.2)⟩
      · refine Or.inr ⟨fun k hk => ?_, h.live, fun c hc heff => ?_⟩
        · rcases parkAhead_cases hk with hold | ⟨c, hc, rfl, -⟩
          · exact (hu.settled hr).ahead k hold
          · cases hexc : ex c.hash with
            | none => exact absurd ⟨c, hc, hexc⟩ hnew
            | some x => rfl
        · exact (hu.settled hr).cites c hc (isEffective_parkAhead heff).1
  obtain ⟨s, hs, heq⟩ := close_rule I hround (Or.inr h)
  rw [heq]
  exact hs.imp_right fun hu => (hu.settled hr).ahead

end Unlaundered

section Found

variable {credits : EntryHash → Option Nat} {closed : Outcomes}

/-- **What a closing found was ahead in one of its rounds**; its outcomes are those of the last. -/
theorem close_found (hd : DistinctHashes cs) :
    (∀ h x, (closeFinalAuthorityDependencies cs credits o).2 h = some x →
      x = .parked .authLenAhead ∧ ∃ c ∈ cs, c.hash = h ∧ AheadIn cs credits o c) ∧
    ∃ last, ClosingRound cs credits o last ∧
      (closeFinalAuthorityDependencies cs credits o).1 = (settledOf cs last).2 := by
  let I : Outcomes × Outcomes → Prop := fun s => ClosingRound cs credits o s.1 ∧ ∀ h x, s.2 h = some x →
    x = .parked .authLenAhead ∧ ∃ c ∈ cs, c.hash = h ∧ AheadIn cs credits o c
  have hround : ∀ s, I s → roundAhead cs credits s.1 ≠ [] →
      I (parkAhead (roundAhead cs credits s.1) (settledOf cs s.1).2,
        parkAhead (roundAhead cs credits s.1) s.2) := by
    refine fun s hs _ => ⟨hs.1.next, fun h x hx => ?_⟩
    rcases parkAhead_cases hx with hold | ⟨c, hc, rfl, rfl⟩
    · exact hs.2 h x hold
    · obtain ⟨hcs, hahead⟩ := mem_roundAhead hd hc
      exact ⟨rfl, c, hcs, rfl, s.1, hs.1, hahead⟩
  obtain ⟨s, ⟨hlast, hfound⟩, heq⟩ := close_rule I hround ⟨.first, nofun⟩
  rw [heq]
  exact ⟨hfound, s.1, hlast, rfl⟩

theorem Readiness.discover_cases {r : Readiness} (hx : r.discover cs closed h = some x) :
    closed h = some x ∨ x = .parked .authLenAhead ∧ ∃ c ∈ cs, c.hash = h ∧
      (r.contributorAhead c = true ∨ r.bystanderAhead c = true) := by
  have hcut : ∀ y, parkAhead (cs.filter r.contributorAhead) closed h = some y →
      closed h = some y ∨ y = .parked .authLenAhead ∧ ∃ c ∈ cs, c.hash = h ∧
        (r.contributorAhead c = true ∨ r.bystanderAhead c = true) := by
    intro y hy
    rcases parkAhead_cases hy with hold | ⟨c, hc, hh, hahead⟩
    · exact Or.inl hold
    · obtain ⟨hcs, hfound⟩ := mem_filter.mp hc
      exact Or.inr ⟨hahead, c, hcs, hh, Or.inl hfound⟩
  unfold Readiness.discover at hx
  split at hx
  · exact hcut x hx
  · rcases parkAhead_cases hx with hold | ⟨c, hc, hh, hahead⟩
    · exact hcut x hold
    · obtain ⟨hcs, hfound⟩ := mem_filter.mp hc
      exact Or.inr ⟨hahead, c, hcs, hh, Or.inr hfound⟩

theorem Readiness.discover_of_found {r : Readiness} (hfound : (closed h).isSome) :
    (r.discover cs closed h).isSome := by
  have hcut := parkAhead_isSome (cs.filter r.contributorAhead) hfound
  unfold Readiness.discover
  split
  · exact hcut
  · exact parkAhead_isSome _ hcut

theorem creditsOf_none {strata : List (Nat × List Candidate)} {contributors : Finset EntryHash}
    (hh : h ∉ contributors) : creditsOf ctx strata contributors o h = none := by
  by_contra hne
  obtain ⟨n, hn⟩ := ne_none_iff_exists'.mp hne
  rcases insertAll_cases hn with hold | ⟨c, -, rfl, hval⟩
  · cases hold
  · rw [if_neg hh] at hval
    cases hval

end Found

/-! ## 5. The fold -/

section Fold

variable {entries : List VerifiedAccountEntry}

theorem foldAccountPass_rooted (hg : findGenesis sha256 (candidatesOf entries) = some genesis) :
    foldAccountPass sha256 entries ex =
      finishPass (contextOf entries genesis) genesis ex (decidedOf entries genesis ex) := by
  unfold foldAccountPass
  unfold candidatesOf at hg
  simp only [hg]
  rfl

theorem foldAccountPass_rootless (hg : findGenesis sha256 (candidatesOf entries) = none) :
    foldAccountPass sha256 entries ex =
      rootlessResult (candidatesOf entries) (readOutcomes (dedupByHash [] entries)) := by
  unfold foldAccountPass
  unfold candidatesOf at hg
  simp only [hg]
  rfl

theorem pass_discovered (hreach : PassReached sha256 entries ex) (hfree : ex h = none)
    (hx : (foldAccountPass sha256 entries ex).discovered h = some x) :
    x = .parked .authLenAhead ∧ FoundAhead sha256 entries h := by
  cases hg : findGenesis sha256 (candidatesOf entries) with
  | none =>
    rw [foldAccountPass_rootless hg] at hx
    cases hx
  | some genesis =>
    rw [foldAccountPass_rooted hg] at hx
    obtain ⟨hfound, last, hlast, hclosed⟩ := @close_found (candidatesOf entries)
      (decidedOf entries genesis ex).outcomes (creditsIn entries genesis ex)
      (candidatesOf_distinct entries)
    rcases Readiness.discover_cases hx with hclosing | ⟨rfl, c, hc, rfl, hahead⟩
    · obtain ⟨hpark, c, hc, hh, hin⟩ := hfound h x hclosing
      exact ⟨hpark, ex, genesis, c, hreach, hfree, hg, hc, hh, hin⟩
    refine ⟨rfl, ex, genesis, c, hreach, hfree, hg, hc, rfl, last, hlast, ?_⟩
    -- both checks measure against the count of the closed outcomes, the entry itself included
    have hmeasure : allowance (vouchTable (candidatesOf entries) (creditsIn entries genesis ex)
          (settledOf (candidatesOf entries) last).2) c
        (effectiveOf (candidatesOf entries) (settledOf (candidatesOf entries) last).2).length
        ((creditsIn entries genesis ex c.hash).getD 0) < c.header.authLen := by
      rw [← hclosed, ← vouchTable_normalize, ← length_effectiveByEpoch, ← citedAhead_iff]
      rcases hahead with hcut | hby
      · exact ((Bool.and_eq_true _ _).mp hcut).2
      · simp only [Readiness.bystanderAhead, Bool.and_eq_true, decide_eq_true_eq] at hby
        have hnone : creditsIn entries genesis ex c.hash = none := creditsOf_none hby.1.1.2
        rw [hnone]
        exact hby.2
    refine lt_of_le_of_lt (allowance_mono ?_) hmeasure
    exact countP_le_length

theorem passReached_found (hreach : PassReached sha256 entries ex) (hx : ex h = some x) :
    x = .parked .authLenAhead ∧ FoundAhead sha256 entries h := by
  induction hreach generalizing x with
  | first => cases hx
  | @next ex ex' hprev hturn ih =>
    unfold foldTurn at hturn
    dsimp only at hturn
    split at hturn
    · cases hturn
      cases hold : ex h with
      | some y =>
        simp only [extendExclusions, hold, some_or] at hx
        exact ih (hold.trans hx)
      | none =>
        simp only [extendExclusions, hold, none_or] at hx
        exact pass_discovered hprev hold hx
    · cases hturn

theorem isRoot_spec (h : isRoot sha256 genesis = true) : genesis.IsGenesis := by
  unfold isRoot at h
  split at h
  · rename_i pubkey hop
    simp only [decide_eq_true_eq] at h
    exact ⟨⟨pubkey, hop⟩, h.2.2.2.2.1, h.2.2.2.2.2.1, h.1, h.2.2.2.2.2.2.1⟩
  · cases h

theorem genesis_not_excluded (hreach : PassReached sha256 entries ex)
    (hg : findGenesis sha256 (candidatesOf entries) = some genesis) : ex genesis.hash = none := by
  by_contra hne
  obtain ⟨x, hx⟩ := ne_none_iff_exists'.mp hne
  obtain ⟨_, _, _, c, _, _, _, hc, hh, o, _, hahead⟩ := passReached_found hreach hx
  obtain ⟨hmem, hroot⟩ := findGenesis_spec hg
  obtain rfl := (candidatesOf_distinct entries).eq_of_hash hc hmem hh
  rw [(isRoot_spec hroot).authLen] at hahead
  exact absurd hahead (Nat.not_lt_zero _)

theorem rooted_contextOf (hg : findGenesis sha256 (candidatesOf entries) = some genesis) :
    Rooted (contextOf entries genesis) := by
  obtain ⟨hmem, hroot⟩ := findGenesis_spec hg
  refine ⟨candidatesOf_distinct entries, fun c hc hh => ?_⟩
  obtain rfl := (candidatesOf_distinct entries).eq_of_hash hc hmem hh
  exact isRoot_spec hroot

theorem readOutcomes_refuse {held : List VerifiedAccountEntry} (hx : readOutcomes held h = some x) :
    x.isRefusal = true := by
  rcases insertAll_cases hx with hold | ⟨e, -, -, hval⟩
  · cases hold
  · unfold readOutcome at hval
    repeat' split at hval
    all_goals cases hval
    all_goals rfl

theorem last_pass (hrun : foldAccountTraced sha256 entries = some r) :
    ∃ ex, PassReached sha256 entries ex ∧ foldAccountPass sha256 entries ex = r ∧
      ∀ c ∈ candidatesOf entries, (r.discovered c.hash).isSome → ex c.hash ≠ none := by
  obtain ⟨ex, hreach, hleave⟩ := loop_rule (PassReached sha256 entries)
    (fun _ _ hreach hturn => hreach.next hturn) .first hrun
  unfold foldTurn at hleave
  dsimp only at hleave
  split at hleave
  · cases hleave
  rename_i hquiet
  cases hleave
  exact ⟨ex, hreach, rfl, fun c hc hfound hfree => hquiet (any_eq_true.mpr ⟨c.entry, mem_candidatesOf hc,
    decide_eq_true ⟨hfound, isNone_iff_eq_none.mpr hfree⟩⟩)⟩

/-- **A fold parks as ahead only what one of its passes found ahead**: in a round of that pass, the entry
    cited more control log than the other effective entries, its own credit and what the effective cuts
    vouched for it. -/
theorem authLenAhead_found (hrun : foldAccountTraced sha256 entries = some r)
    (hpark : r.history.outcomes h = some (.parked .authLenAhead)) : FoundAhead sha256 entries h := by
  obtain ⟨ex, hreach, rfl, hquiet⟩ := last_pass hrun
  suffices hex : (ex h).isSome by
    obtain ⟨x, hx⟩ := isSome_iff_exists.mp hex
    exact (passReached_found hreach hx).2
  cases hg : findGenesis sha256 (candidatesOf entries) with
  | none =>
    -- without a root every candidate is parked under an unknown owner
    exfalso
    rw [foldAccountPass_rootless hg] at hpark
    rcases insertAll_cases hpark with hold | ⟨c, -, -, hval⟩
    · cases readOutcomes_refuse hold
    · cases hval
  | some genesis =>
    rw [foldAccountPass_rooted hg] at hpark hquiet
    have hdecided : Unlaundered (contextOf entries genesis) ex
        ((decidedOf entries genesis ex).state, (decidedOf entries genesis ex).outcomes) :=
      decidePass_unlaundered (rooted_contextOf hg) (fun _ _ hx => readOutcomes_refuse hx)
        (fun _ _ hx => (passReached_found hreach hx).1) (genesis_not_excluded hreach hg)
    rcases close_unlaundered (rooted_contextOf hg) hdecided (creditsIn entries genesis ex) with
      ⟨c, hc, hfree, hfound⟩ | hclosed
    · -- a new entry was found, so this was not the last pass
      exact absurd hfree (hquiet c hc (Readiness.discover_of_found hfound))
    · exact hclosed h (of_normalize hpark rfl)

end Fold

/-! ## 6. Two enrollments of one device -/

/-- An entry of a founder's chain: its hash, position, predecessor, citation, cited length and op. -/
def founderEntry (h : EntryHash) (seq : Nat) (prev : Option EntryHash) (auth : Option OwnerId)
    (authLen : Nat) (op : AccountOp) : VerifiedAccountEntry :=
  ⟨⟨7, 0, 100, seq, prev, none, 1, 0, authLen, auth⟩, .known op, 7, h⟩

/-- The first enrollment of 101 cites three effective entries beside two; a second one and a
    promotion follow. -/
def twiceEnrolled : List VerifiedAccountEntry :=
  [founderEntry 1 0 none none 0 (.accountGenesis []),
   founderEntry 2 1 (some 1) (some 1) 3 (.deviceAdd 101 .member),
   founderEntry 3 2 (some 2) (some 1) 1 (.deviceAdd 101 .member),
   founderEntry 4 3 (some 3) (some 1) 1 (.ownerPromote 101)]

/-- **A later pass can count what the parked entry cites**: the second enrollment takes the place of the
    first, and the three effective entries are as many as the first one cited. -/
theorem parked_behind_final_count :
    ((foldAccountTraced (fun _ => 100) twiceEnrolled).map fun r =>
        (r.history.outcomes 2, r.history.effectiveCount)) = some (some (.parked .authLenAhead), 3) ∧
      (founderEntry 2 1 (some 1) (some 1) 3 (.deviceAdd 101 .member)).header.authLen = 3 := by
  decide +kernel

/-- Its parking is that of the first pass. -/
theorem first_enrollment_found : FoundAhead (fun _ => 100) twiceEnrolled 2 := by
  have hrun : ∃ r ∈ foldAccountTraced (fun _ => 100) twiceEnrolled,
      r.history.outcomes 2 = some (.parked .authLenAhead) := by
    decide +kernel
  obtain ⟨r, hr, hparked⟩ := hrun
  exact authLenAhead_found hr hparked

end RagRat.Account
