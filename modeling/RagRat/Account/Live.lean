/-
  File:      RagRat/Account/Live.lean
  Subject:   THE LEDGER OF A LIVE FOLD.

  * `live_ledger` -- a fold that ends live has a lawful ledger, and the cuts of the revocations whose authors
    are undisputed are in its registers.
  * `one_enrollment_per_device` -- hence one enrollment a device, before its removal;
    `no_authority_laundering` -- citations back to the genesis.
-/
import Mathlib.Data.List.TakeWhile
import RagRat.Account.Reserve

namespace RagRat.Account

open List
open Lib.Register Lib.Keyed Lib.Loop
open Lib.Cbor (Bytes)
open FoldState Function Incarnations Option Outcomes

variable {ctx : FoldContext} {ex o : Outcomes} {d founder : DeviceFingerprint}
  {c genesis b : Candidate} {led done pre post cs : List Candidate} {inc : Incarnations}
  {v : FoldVerdicts} {s : FoldState × Outcomes} {i j epoch : Nat} {ref k : RosterRef}
  {registers : Registers}

open Candidate

/-! ## 1. A live pass -/

theorem depths_outside (hr : Rooted ctx) (hread : ∀ h x, o h = some x → x.isRefusal = true)
    (hex : ∀ h x, ex h = some x → x = .parked .authLenAhead) :
    let depths := foldDepths ctx (strataOf ex ctx.incarnations founder)
      ({ state := seeded ctx.rootId },
        insertAll hash (heldOut ex ctx.incarnations founder) ctx.candidates o)
    depths.1.verdicts.Refuses ctx.rootId ∧
      (depths.1.classification = .live → DepthPass.Ends ctx
        { state := FoldState.seeded ctx.rootId } depths.1
        (strataOf ex ctx.incarnations founder)) ∧
      ∀ k, (∀ c ∈ judgedOrder ex ctx.incarnations founder, c.hash ≠ k) → depths.2.isEffective k = false := by
  refine foldDepths_rule (fun s => ∀ k, (∀ c ∈ judgedOrder ex ctx.incarnations founder, c.hash ≠ k) →
      s.2.isEffective k = false) (fun _ _ _ h => h) hr.stratified
    (fun v s hv x hx c hc h k hk => (isEffective_insert _).trans ((if_neg fun hkc =>
      hk c (mem_flatMap.mpr ⟨x, hx, (mem_sorted _).mpr hc⟩) hkc.symm).trans (h k hk)))
    (refuses_start _) (derived_start ctx _) fun k _ => ?_
  by_contra heff
  obtain ⟨e, he⟩ := isEffective_iff.mp (Bool.eq_true_of_not_eq_false heff)
  rcases heldOut_refuses hread (authEpoch_iff.mp he) with hc | hno
  · cases hex _ _ hc
  · cases hno

theorem overlaid_ledger (hv : v.Refuses ctx.rootId)
    (hd : DistinctHashes ctx.candidates)
    (h : Entered ctx.incarnations v (judgedOrder ex ctx.incarnations founder) led s)
    (hout : ∀ k, (∀ c ∈ judgedOrder ex ctx.incarnations founder, c.hash ≠ k) → s.2.isEffective k = false)
    (hc : c ∈ ctx.candidates) (e : Nat) :
    (overlayVerdicts ctx.candidates v s.2).authEpoch c.hash = some e ↔ led[e]? = some c := by
  have hkeep : c ∈ led → overlayVerdicts ctx.candidates v s.2 c.hash = s.2 c.hash := fun hled => by
    have hdec := h.undecided c hled
    have hnone : overlayOutcome v c = none := by
      unfold FoldVerdicts.decided at hdec
      unfold overlayOutcome
      simp only [or_eq_none_iff] at hdec ⊢
      exact ⟨hdec.1, hdec.2.1⟩
    rw [overlayVerdicts, insertAll_of_mem hd hc, hnone, none_or]
  constructor
  · intro he
    have hold : s.2.authEpoch c.hash = some e := authEpoch_iff.mpr
      ((overlay_refuses hv (authEpoch_iff.mp he)).resolve_right Bool.noConfusion)
    by_cases hin : c ∈ judgedOrder ex ctx.incarnations founder
    · exact (h.epoch c hin e).mp hold
    · have heff := isEffective_iff.mpr ⟨e, hold⟩
      rw [hout c.hash fun b hb hbc => hin (hd.eq_of_hash (judgedOrder_subset hb) hc hbc ▸ hb)] at heff
      cases heff
  · intro he
    have hled := mem_of_getElem? he
    rw [authEpoch, hkeep hled]
    exact (h.epoch c (h.sublist.subset hled) e).mpr he

/-- **A settlement of a ledger takes no enrollment, promotion or removal**, and moves nothing. -/
theorem settle_ledger (hr : Rooted ctx) (hlaw : Lawful ctx.incarnations led)
    (hroot : ∀ c ∈ ctx.candidates, c.hash = ctx.rootId → c ∈ led)
    (hsub : led ⊆ ctx.candidates)
    (heff : ∀ c ∈ ctx.candidates, o.isEffective c.hash = true ↔ c ∈ led) :
    (∀ h e, (settleAuthorityDependencies ctx.candidates o).authEpoch h = some e → o.authEpoch h = some e) ∧
      ∀ c ∈ led, c.isRoster = true → (settleAuthorityDependencies ctx.candidates o).isEffective c.hash = true := by
  refine settle_rule (fun o' => (∀ h e, o'.authEpoch h = some e → o.authEpoch h = some e) ∧
    ∀ c ∈ led, c.isRoster = true → o'.isEffective c.hash = true)
    (fun start o' c x hc hstart ho hce hrep => ⟨fun h e he => ?_, fun b hb hbr => ?_⟩)
    ⟨fun _ _ h => h, fun c hc _ => (heff c (hsub hc)).mpr hc⟩
  · rcases eq_or_ne h c.hash with rfl | hne
    · have hx := replacement_not_effective hrep
      cases some.inj ((insert_self _ _ _).symm.trans (authEpoch_iff.mp he))
      cases hx
    · exact ho.1 h e (by rwa [authEpoch, insert_of_ne hne] at he)
  · rw [isEffective_insert]
    split
    swap
    · exact ho.2 b hb hbr
    -- what falls is not of the roster: its author and the enrollment it promotes are there
    rename_i hbc
    exfalso
    obtain rfl := hr.distinct.eq_of_hash (hsub hb) hc hbc
    obtain ⟨pre, post, hsplit⟩ := append_of_mem hb
    have hpre : ∀ a ∈ pre, a ∈ led := fun a ha => hsplit ▸ mem_append_left _ ha
    obtain ⟨⟨id, mint, hid, hmint, -, hauthor⟩, hopens, -, hpromotes⟩ := hlaw pre b post hsplit
    obtain ⟨hmem, hmm, hhash⟩ := (find?_key_eq_some_iff hr.distinct).mp hmint
    have hcited : ∀ a, b.header.authorityRef = some a → o'.isEffective a = true := by
      intro a ha
      rcases live_of_author hid ha with rfl | ⟨pubkey, hop, rfl⟩
      · have hled : mint ∈ led := hauthor.elim (fun hg => hroot mint hmem (hhash.trans hg)) (hpre mint)
        exact hhash ▸ ho.2 mint hled (isMint_isRoster hmm)
      · -- a genesis is written under itself, and the one at the root cites nothing
        rw [hopens pubkey hop] at hauthor
        rw [(hr.root b hc (hauthor.resolve_right not_mem_nil)).authorityRef] at ha
        cases ha
    have hsupport : stateSupports ctx.candidates start b.op = true := by
      unfold isRoster at hbr
      cases hop : b.op with
      | ownerPromote d =>
        obtain ⟨a, ha, had, -⟩ := hpromotes d hop
        refine decide_eq_true (mem_filterMap.mpr ⟨a, mem_effectiveOf.mpr ⟨hsub (hpre a ha), ?_⟩, had⟩)
        exact hstart.2 a (hpre a ha) (enrolls_isRoster had)
      | streamGrant | streamRevoke => simp [hop] at hbr
      | _ => rfl
    unfold replacement at hrep
    rw [if_neg, hsupport] at hrep
    · cases hrep
    · intro hany
      obtain ⟨a, ha, hne⟩ := (any_eq_true _ _).mp hany
      rw [hcited a ha] at hne
      cases hne

section Genesis

variable (hr : Rooted ctx) (hg : genesis ∈ ctx.candidates)
  (hid : genesis.hash = ctx.rootId) (hfree : ex genesis.hash = none)

include hr hg hid hfree

theorem replay_entered (hv : v.Refuses ctx.rootId)
    (hfounder : genesis.header.deviceFingerprint = founder) (o : Outcomes) :
    ∃ led, Entered ctx.incarnations v (judgedOrder ex ctx.incarnations founder) led
      ((judgedOrder ex ctx.incarnations founder).foldl (effectStep ctx.incarnations v)
        (seeded ctx.rootId, o)) := by
  have hstart : Entered ctx.incarnations v [] []
      (seeded ctx.rootId, o) :=
    ⟨reflects_seeded _, fun pre c post hnil => by simp at hnil, List.Sublist.refl _,
      fun b hb => absurd hb not_mem_nil, fun b hb => absurd hb not_mem_nil,
      fun b hb => absurd hb not_mem_nil⟩
  refine hstart.run hv hr _ judgedOrder_subset ((judgedOrder_pairwise hr.distinct).imp And.left)
    fun pre b post heq hb => ?_
  have hmem : b ∈ ctx.candidates := judgedOrder_subset (heq ▸ mem_append_right _ mem_cons_self)
  obtain rfl := hr.distinct.eq_of_hash hmem hg (hb.trans hid.symm)
  exact genesis_first hr hg hid hfree hfounder heq

theorem decided_ledger (hview : ∀ c ∈ ctx.candidates, ctx.view c.hash = some c.header) (hread : ∀ h x, o h = some x → x.isRefusal = true)
    (hex : ∀ h x, ex h = some x → x = .parked .authLenAhead)
    (hfounder : genesis.header.deviceFingerprint = founder)
    (hlive : (decidePass ctx founder ex o).pass.classification = .live) :
    ∃ led, Lawful ctx.incarnations led ∧
      (∀ c ∈ led, c ∈ ctx.candidates ∧ ex c.hash = none ∧ (c.hash ≠ ctx.rootId →
        registerVerdict c (decidePass ctx founder ex o).pass.registers ctx.view = .clear) ∧
        (∀ a ∈ ctx.candidates, c.header.authorityRef = some a.hash → Undisputed ctx.incarnations a →
          ∀ r ∈ cutOpRegisters c, (decidePass ctx founder ex o).pass.registers.Holds ctx.view r.1 r.2.1) ∧
        ∀ key cut, (decidePass ctx founder ex o).pass.registers key = some cut → ctx.Names key cut) ∧
      (∀ c ∈ ctx.candidates, ∀ e, (decidePass ctx founder ex o).outcomes.authEpoch c.hash = some e ↔
        led[e]? = some c) ∧
      (∀ d, d ∈ (decidePass ctx founder ex o).state.tombstoned ↔ ∃ b ∈ led, b.removes = some d) ∧
      (∀ c ∈ ctx.candidates, c.hash = ctx.rootId → c ∈ led) ∧
      (Sheltered ctx → ∃ m ∈ led, m.isMint = true ∧ ∀ c ∈ led, c.closes m = false) := by
  obtain ⟨hrefuse, hends, hout⟩ := @depths_outside ctx ex o founder hr hread hex
  unfold decidePass at hlive ⊢
  dsimp only at hlive hrefuse hends hout ⊢
  generalize hdepths : foldDepths ctx (strataOf ex ctx.incarnations founder) _ = depths at hlive hrefuse hends hout ⊢
  have hall : (strataOf ex ctx.incarnations founder).takeWhile
      (fun s => AccountClassification.live.replays s.1) = strataOf ex ctx.incarnations founder :=
    takeWhile_eq_self_iff.mpr fun _ _ => rfl
  obtain ⟨led, h⟩ := replay_entered hr hg hid hfree hrefuse hfounder depths.2
  have hreplay : replayEffectState ctx (strataOf ex ctx.incarnations founder) .live depths.1.verdicts depths.2 =
      (judgedOrder ex ctx.incarnations founder).foldl (effectStep ctx.incarnations depths.1.verdicts)
        (seeded ctx.rootId, depths.2) := by
    rw [replayEffectState, hall, judgedOrder, judged, foldl_flatMap]
    rfl
  rw [hlive, hreplay]
  have houtside : ∀ k, (∀ c ∈ judgedOrder ex ctx.incarnations founder, c.hash ≠ k) →
      ((judgedOrder ex ctx.incarnations founder).foldl (effectStep ctx.incarnations depths.1.verdicts)
        (seeded ctx.rootId, depths.2)).2.isEffective k = false := fun k hk =>
    List.foldlRecOn (motive := fun s : FoldState × Outcomes => s.2.isEffective k = false) _ _ (hout k hk)
      fun s hs c hc => (isEffective_insert _).trans ((if_neg (hk c hc).symm).trans hs)
  have hreserved := fun hsh => owner_reserved hsh hr hview hg hid hfree hfounder _ _ hdepths hlive h
  generalize (judgedOrder ex ctx.incarnations founder).foldl _ _ = replayed at h houtside ⊢
  have hepoch := fun c (hc : c ∈ ctx.candidates) => overlaid_ledger hrefuse hr.distinct h houtside hc
  have hled : led ⊆ ctx.candidates := fun c hc => judgedOrder_subset (h.sublist.subset hc)
  refine ⟨led, h.lawful, fun c hc => ⟨hled hc, ?_, fun hne => (hends hlive).derived.clears c (hled hc) hne
    (h.undecided c hc), cuts_installed hr hview h.lawful h.sublist _ hdepths hlive h.undecided c hc,
    (hends hlive).derived.named⟩, hepoch, h.reflects.removed, fun c hc hcg => h.rooted c ?_ hcg, hreserved⟩
  · obtain ⟨x, hx, hcx⟩ := mem_judgedOrder (h.sublist.subset hc)
    exact not_excluded_of_heldOut (mem_strataOf hx hcx).2.1
  · obtain rfl := hr.distinct.eq_of_hash hc hg (hcg.trans hid.symm)
    exact (genesis_judged hr hg hid hfree).1

end Genesis

theorem final_lt (hd : DistinctHashes cs) (hsub : led ⊆ cs)
    (hepoch : ∀ c ∈ cs, ∀ e, o.authEpoch c.hash = some e ↔ led[e]? = some c)
    (hmoves : ∀ h e, (settleAuthorityDependencies cs o).authEpoch h = some e → o.authEpoch h = some e)
    {e e' : Nat} (hij : i < j) (hi : led[i]? = some c) (hj : led[j]? = some b)
    (he : (normalizeAuthEpochs cs (settledOf cs o).2).2.authEpoch c.hash = some e)
    (he' : (normalizeAuthEpochs cs (settledOf cs o).2).2.authEpoch b.hash = some e') : e < e' := by
  -- an entry that is effective in the end has the epoch of its place before it is renumbered
  have hplace : ∀ k x n, led[k]? = some x →
      (normalizeAuthEpochs cs (settledOf cs o).2).2.authEpoch x.hash = some n →
        (settleAuthorityDependencies cs o).authEpoch x.hash = some k := by
    intro k x n hk hn
    have hxe := isEffective_iff.mpr ⟨n, hn⟩
    rw [isEffective_normalize, settledOf, isEffective_normalize] at hxe
    obtain ⟨m, hm⟩ := isEffective_iff.mp hxe
    have hx := hsub (mem_of_getElem? hk)
    obtain rfl := some.inj ((hmoves _ _ hm).symm.trans ((hepoch x hx k).mpr hk))
    exact hm
  have hc := hsub (mem_of_getElem? hi)
  have hb := hsub (mem_of_getElem? hj)
  have hci := hplace i c e hi he
  have hbj := hplace j b e' hj he'
  obtain ⟨n, hn, -⟩ := normalize_epoch hd hc hci
  obtain ⟨m, hm, -⟩ := normalize_epoch hd hb hbj
  exact normalize_lt hd hc hb hn hm (normalize_lt hd hc hb hci hbj hij hn hm) he he'

theorem close_quiet {credits : EntryHash → Option Nat}
    (hfree : ∀ c ∈ cs, o.isEffective c.hash = true → ex c.hash = none) :
    (∃ c ∈ cs, ex c.hash = none ∧ ((closeFinalAuthorityDependencies cs credits o).2 c.hash).isSome) ∨
      (closeFinalAuthorityDependencies cs credits o).1 = (settledOf cs o).2 := by
  obtain ⟨s, hs, heq⟩ := @close_rule cs o credits
    (fun s => (∃ c ∈ cs, ex c.hash = none ∧ (s.2 c.hash).isSome) ∨ s.1 = o)
    (fun s hs hne => Or.inl (hs.elim (fun ⟨c, hc, hf, hfound⟩ => ⟨c, hc, hf, parkAhead_isSome _ hfound⟩) fun hso => by
        obtain ⟨c, hc⟩ := exists_mem_of_ne_nil _ hne
        obtain ⟨hcs, heff⟩ := mem_effectiveOf.mp (mem_of_mem_filter hc)
        exact ⟨c, hcs, hfree c hcs (hso ▸ heff), isSome_of_eq_some (parkAhead_of_mem hc s.2)⟩))
    (Or.inr rfl)
  rw [heq]
  exact hs.imp_right fun hso => by rw [hso]

/-! ## 2. A fold that ends live -/

section Fold

variable {sha256 : Bytes → Bytes32} {entries : List VerifiedAccountEntry} {r : PassResult}
  {fact : RosterFact}

theorem headersOf_candidate (hc : c ∈ candidatesOf entries) :
    headersOf (dedupByHash [] entries) c.hash = some c.header := by
  obtain ⟨e, he, hcand⟩ := mem_filterMap.mp hc
  obtain rfl := candidate_entry hcand
  have hheld : c.entry.heldHeader = some c.header := by
    refine if_neg fun h => ?_
    unfold VerifiedAccountEntry.candidate at hcand
    simp [h.2] at hcand
  have hself : headersOf (dedupByHash [] entries) c.hash = c.entry.heldHeader.or none :=
    insertAll_of_mem (dedupByHash_spec [] entries).1 he _
  rw [hheld] at hself
  exact hself

theorem modifyRoster_device {f : AuthorityFacts} {g : RosterFact → RosterFact}
    (h : (f.modifyRoster k g).rosterRefs ref = some fact)
    (hg : ∀ x, (g x).deviceFingerprint = x.deviceFingerprint) :
    ∃ x, f.rosterRefs ref = some x ∧ x.deviceFingerprint = fact.deviceFingerprint := by
  rcases eq_or_ne ref k with rfl | hne
  · simp only [AuthorityFacts.modifyRoster, update_self] at h
    obtain ⟨x, hx, rfl⟩ := map_eq_some_iff.mp h
    exact ⟨x, hx, (hg x).symm⟩
  · simp only [AuthorityFacts.modifyRoster, update_of_ne hne] at h
    exact ⟨fact, h, rfl⟩

theorem factStep_roster {s : FactsState}
    (h : (factStep registers s (c, epoch)).facts.rosterRefs ref = some fact) :
    (∃ x, s.facts.rosterRefs ref = some x ∧ x.deviceFingerprint = fact.deviceFingerprint) ∨
      c.hash = ref ∧ c.enrolls = some fact.deviceFingerprint := by
  have henroll : ∀ d role, (s.enroll c.hash d role epoch).facts.rosterRefs ref = some fact →
      c.enrolls = some d → (∃ x, s.facts.rosterRefs ref = some x ∧
        x.deviceFingerprint = fact.deviceFingerprint) ∨
          c.hash = ref ∧ c.enrolls = some fact.deviceFingerprint := by
    intro d role hx hd
    rcases eq_or_ne ref c.hash with rfl | hne
    · simp only [FactsState.enroll, update_self] at hx
      cases hx
      exact Or.inr ⟨rfl, hd⟩
    · simp only [FactsState.enroll, update_of_ne hne] at hx
      exact Or.inl ⟨fact, hx, rfl⟩
  unfold factStep at h
  cases hop : c.op with
  | accountGenesis pubkey =>
    simp only [hop] at h
    exact henroll _ _ h (by simp [enrolls, subjectDevice, hop])
  | deviceAdd d role =>
    simp only [hop] at h
    refine henroll d role ?_ (by simp [enrolls, hop])
    split at h <;> exact h
  | ownerPromote d =>
    simp only [hop] at h
    split at h
    · exact Or.inl ⟨fact, h, rfl⟩
    · exact Or.inl (modifyRoster_device h fun _ => rfl)
  | deviceRemove d cc sc cuts =>
    simp only [hop] at h
    have hclose : (closeRoster registers c.header.accountId d cuts epoch s).facts.rosterRefs ref = some fact := by
      unfold closeOwner at h
      split at h <;> exact h
    unfold closeRoster at hclose
    split at hclose
    · exact Or.inl ⟨fact, hclose, rfl⟩
    · exact Or.inl (modifyRoster_device hclose fun _ => rfl)
  | ownerDemote d id cc sc =>
    simp only [hop] at h
    split at h
    · unfold demoteOwner at h
      cases href : s.roster d with
      | none =>
        simp only [href] at h
        exact Or.inl ⟨fact, h, rfl⟩
      | some ref' =>
        simp only [href] at h
        exact Or.inl (modifyRoster_device h fun _ => rfl)
    · exact Or.inl ⟨fact, h, rfl⟩
  | streamRevoke =>
    simp only [hop] at h
    split at h <;> exact Or.inl ⟨fact, h, rfl⟩
  | _ =>
    simp only [hop] at h
    exact Or.inl ⟨fact, h, rfl⟩

theorem rosterRefs_spec {account : AccountId}
    (h : (deriveAuthorityFacts account cs o registers).rosterRefs ref = some fact) :
    ∃ c ∈ cs, c.hash = ref ∧ o.isEffective c.hash = true ∧ c.enrolls = some fact.deviceFingerprint := by
  obtain ⟨x, hx, rfl⟩ := map_eq_some_iff.mp h
  refine List.foldlRecOn (motive := fun s : FactsState => ∀ x, s.facts.rosterRefs ref = some x →
    ∃ c ∈ cs, c.hash = ref ∧ o.isEffective c.hash = true ∧ c.enrolls = some x.deviceFingerprint)
    _ _ (fun x hx => by cases hx) (fun s hs y hy x hx => ?_) x hx
  obtain ⟨c, hc, hce⟩ := mem_filterMap.mp ((sorted_perm _ _).mem_iff.mp hy)
  obtain ⟨epoch, hepoch, rfl⟩ := map_eq_some_iff.mp hce
  rcases factStep_roster hx with ⟨x', hx', hd⟩ | ⟨href, hd⟩
  · exact hd ▸ hs x' hx'
  · exact ⟨c, hc, href, isEffective_iff.mpr ⟨epoch, hepoch⟩, hd⟩

/-- **A fold that ends live has a ledger**: lawful, with the effective entries in the order of their epochs and
    the removals that tombstone. Its roster facts are those of the effective enrollments. -/
theorem live_ledger (hrun : foldAccountTraced sha256 entries = some r)
    (hlive : r.history.classification = .live) :
    ∃ inc led, Lawful inc led ∧ led ⊆ candidatesOf entries ∧
      (∀ c ∈ candidatesOf entries, r.history.outcomes.isEffective c.hash = true → c ∈ led) ∧
      (∀ c ∈ led, c.isRoster = true → r.history.outcomes.isEffective c.hash = true) ∧
      (∀ (i j : Nat) c b e e', i < j → led[i]? = some c → led[j]? = some b →
        r.history.outcomes.authEpoch c.hash = some e → r.history.outcomes.authEpoch b.hash = some e' → e < e') ∧
      (∀ d, d ∈ r.history.tombstoned ↔ ∃ b ∈ led, b.removes = some d) ∧
      (∀ c ∈ led, ∃ genesis t, inc = (contextOf entries genesis).incarnations ∧
        findGenesis sha256 (candidatesOf entries) = some genesis ∧
        r.history.genesisHash = some genesis.hash ∧ r.trace = some t ∧ (c.hash ≠ genesis.hash →
          registerVerdict c t.registers (headersOf (dedupByHash [] entries)) = .clear) ∧
        (∀ a ∈ candidatesOf entries, c.header.authorityRef = some a.hash → Undisputed inc a →
          ∀ reg ∈ cutOpRegisters c, t.registers.Holds (headersOf (dedupByHash [] entries)) reg.1 reg.2.1) ∧
        ∀ key cut, t.registers key = some cut → (contextOf entries genesis).Names key cut) ∧
      (∀ genesis, findGenesis sha256 (candidatesOf entries) = some genesis → genesis ∈ led ∧
        (Sheltered (contextOf entries genesis) → ∃ m ∈ led, m.isMint = true ∧ ∀ c ∈ led, c.closes m = false)) ∧
      ∀ ref fact, r.history.facts.rosterRefs ref = some fact → ∃ c ∈ candidatesOf entries, c.hash = ref ∧
        r.history.outcomes.isEffective c.hash = true ∧ c.enrolls = some fact.deviceFingerprint := by
  obtain ⟨ex, hreach, rfl, hquiet⟩ := last_pass hrun
  have hd := candidatesOf_distinct entries
  cases hg : findGenesis sha256 (candidatesOf entries) with
  | none =>
    rw [foldAccountPass_rootless hg]
    refine ⟨⟨[], 0⟩, [], fun pre c post hnil => by simp at hnil, nil_subset _, fun c hc heff => ?_,
      fun c hc => absurd hc not_mem_nil, fun i j c b e e' _ hi => by simp at hi,
      fun d => by simp [rootlessResult], fun c hc => absurd hc not_mem_nil,
      (fun _ h => by cases h), fun ref fact hfact => by cases hfact⟩
    obtain ⟨e, he⟩ := isEffective_iff.mp heff
    rcases insertAll_cases (authEpoch_iff.mp he) with hold | ⟨b, -, -, hval⟩
    · cases readOutcomes_refuse hold
    · cases hval
  | some genesis =>
    rw [foldAccountPass_rooted hg] at hlive hquiet ⊢
    have hr := rooted_contextOf hg
    obtain ⟨hmem, hroot⟩ := findGenesis_spec hg
    obtain ⟨pubkey, hop⟩ := (isRoot_spec hroot).op
    obtain ⟨led, hlaw, hled, hepoch, htomb, hgenesis, hreserved⟩ := @decided_ledger (contextOf entries genesis) ex
      (readOutcomes (dedupByHash [] entries)) genesis.subjectDevice genesis hr hmem rfl
      (genesis_not_excluded hreach hg) (fun c hc => headersOf_candidate hc) (fun _ _ hx => readOutcomes_refuse hx)
      (fun _ _ hx => (passReached_found hreach hx).1) (by simp [subjectDevice, hop]) hlive
    have heff : ∀ c ∈ candidatesOf entries,
        (decidedOf entries genesis ex).outcomes.isEffective c.hash = true ↔ c ∈ led := fun c hc => by
      rw [isEffective_iff, mem_iff_getElem?]
      exact exists_congr (hepoch c hc)
    obtain ⟨hmoves, hkeeps⟩ := settle_ledger hr hlaw hgenesis (fun c hc => (hled c hc).1) heff
    have hclosed : (closeFinalAuthorityDependencies (candidatesOf entries) (creditsIn entries genesis ex)
        (decidedOf entries genesis ex).outcomes).1 =
          (settledOf (candidatesOf entries) (decidedOf entries genesis ex).outcomes).2 := by
      refine (@close_quiet ex _ (candidatesOf entries) (creditsIn entries genesis ex)
        (fun c hc hce => (hled c ((heff c hc).mp hce)).2.1)).resolve_left ?_
      rintro ⟨c, hc, hfree, hfound⟩
      exact hquiet c hc (Readiness.discover_of_found hfound) hfree
    have hfinal : (finishPass (contextOf entries genesis) genesis ex
        (decidedOf entries genesis ex)).history.outcomes = (normalizeAuthEpochs (candidatesOf entries)
          (settledOf (candidatesOf entries) (decidedOf entries genesis ex).outcomes).2).2 := by
      rw [← hclosed]
      rfl
    have hfacts : ∀ ref fact, (finishPass (contextOf entries genesis) genesis ex
        (decidedOf entries genesis ex)).history.facts.rosterRefs ref = some fact →
          ∃ c ∈ candidatesOf entries, c.hash = ref ∧ (finishPass (contextOf entries genesis) genesis ex
            (decidedOf entries genesis ex)).history.outcomes.isEffective c.hash = true ∧
              c.enrolls = some fact.deviceFingerprint := fun ref fact h => rosterRefs_spec h
    rw [hfinal] at hfacts ⊢
    refine ⟨_, led, hlaw, fun c hc => (hled c hc).1, fun c hc hce => ?_, fun c hc hcr => ?_,
      fun i j c b e e' hij hi hj he he' => final_lt hd (fun c hc => (hled c hc).1) hepoch hmoves hij hi hj
        he he', htomb, fun c hc => ⟨genesis, _, rfl, rfl, rfl, rfl, (hled c hc).2.2⟩,
      fun _ h => some.inj h ▸ ⟨hgenesis genesis hmem rfl, hreserved⟩, hfacts⟩
    · exact (heff c hc).mp (settledOf_shrinks ((isEffective_normalize c.hash).symm.trans hce))
    · rw [isEffective_normalize, settledOf, isEffective_normalize]
      exact hkeeps c hc hcr

theorem Lawful.fresh (h : Lawful inc led) (hij : i < j) (hb : led[i]? = some b)
    (hc : led[j]? = some c) (hd : c.enrolls = some d) : b.enrolls ≠ some d ∧ b.removes ≠ some d := by
  obtain ⟨hj, rfl⟩ := List.getElem?_eq_some_iff.mp hc
  refine (h (led.take j) led[j] (led.drop (j + 1)) (by simp)).fresh d hd b ?_
  exact mem_of_getElem? ((List.getElem?_take_of_lt hij).trans hb)

/-- **One enrollment a device.** In a fold that ends live a device is the subject of one effective enrollment
    at most, the tombstoned devices are those of the effective removals, an enrollment comes before the removal
    of its device, and a device has one roster fact. -/
theorem one_enrollment_per_device (hrun : foldAccountTraced sha256 entries = some r)
    (hlive : r.history.classification = .live) :
    (∀ b ∈ candidatesOf entries, ∀ c ∈ candidatesOf entries, ∀ d, r.history.outcomes.isEffective b.hash = true →
      r.history.outcomes.isEffective c.hash = true → b.enrolls = some d → c.enrolls = some d → b = c) ∧
    (∀ d, d ∈ r.history.tombstoned ↔
      ∃ c ∈ candidatesOf entries, r.history.outcomes.isEffective c.hash = true ∧ c.removes = some d) ∧
    (∀ b ∈ candidatesOf entries, ∀ c ∈ candidatesOf entries, ∀ d e e', b.enrolls = some d → c.removes = some d →
      r.history.outcomes.authEpoch b.hash = some e → r.history.outcomes.authEpoch c.hash = some e' → e < e') ∧
    ∀ ref ref' fact fact', r.history.facts.rosterRefs ref = some fact →
      r.history.facts.rosterRefs ref' = some fact' → fact.deviceFingerprint = fact'.deviceFingerprint →
        ref = ref' := by
  obtain ⟨inc, led, hlaw, hsub, heff, hkeep, horder, htomb, -, -, hfacts⟩ := live_ledger hrun hlive
  have hone : ∀ b ∈ candidatesOf entries, ∀ c ∈ candidatesOf entries, ∀ d,
      r.history.outcomes.isEffective b.hash = true → r.history.outcomes.isEffective c.hash = true →
      b.enrolls = some d → c.enrolls = some d → b = c := by
    intro b hb c hc d hbe hce hbd hcd
    obtain ⟨i, hi⟩ := mem_iff_getElem?.mp (heff b hb hbe)
    obtain ⟨j, hj⟩ := mem_iff_getElem?.mp (heff c hc hce)
    rcases lt_trichotomy i j with hij | rfl | hji
    · exact absurd hbd (hlaw.fresh hij hi hj hcd).1
    · exact some.inj (hi.symm.trans hj)
    · exact absurd hcd (hlaw.fresh hji hj hi hbd).1
  refine ⟨hone, fun d => ⟨fun hd => ?_, fun ⟨c, hc, hce, hcd⟩ => (htomb d).mpr ⟨c, heff c hc hce, hcd⟩⟩,
    fun b hb c hc d e e' hbd hcd he he' => ?_, fun ref ref' fact fact' hfact hfact' hsame => ?_⟩
  · obtain ⟨c, hc, hcd⟩ := (htomb d).mp hd
    exact ⟨c, hsub hc, hkeep c hc (removes_isRoster hcd).1, hcd⟩
  · obtain ⟨i, hi⟩ := mem_iff_getElem?.mp (heff b hb (isEffective_iff.mpr ⟨e, he⟩))
    obtain ⟨j, hj⟩ := mem_iff_getElem?.mp (heff c hc (isEffective_iff.mpr ⟨e', he'⟩))
    rcases lt_trichotomy i j with hij | rfl | hji
    · exact horder i j b c e e' hij hi hj he he'
    · obtain rfl := some.inj (hi.symm.trans hj)
      rw [(removes_isRoster hcd).2] at hbd
      cases hbd
    · exact absurd hcd (hlaw.fresh hji hj hi hbd).2
  · obtain ⟨c, hc, hcr, hce, hcd⟩ := hfacts ref fact hfact
    obtain ⟨b, hb, hbr, hbe, hbd⟩ := hfacts ref' fact' hfact'
    rw [← hcr, ← hbr, hone c hc b hb _ hce hbe hcd (hsame ▸ hbd)]

/-- A device that is enrolled, removed and enrolled again. -/
def readmitted : List VerifiedAccountEntry :=
  [founderEntry 1 0 none none 0 (.accountGenesis []),
   founderEntry 2 1 (some 1) (some 1) 1 (.deviceAdd 101 .member),
   founderEntry 3 2 (some 2) (some 1) 2 (.deviceRemove 101 .empty .empty []),
   founderEntry 4 3 (some 3) (some 1) 3 (.deviceAdd 101 .owner)]

/-- It stays removed: its second enrollment is not effective. -/
theorem readmitted_stays_removed :
    ∃ r, foldAccountTraced (fun _ => 100) readmitted = some r ∧ r.history.classification = .live ∧
      r.history.outcomes.isEffective 2 = true ∧ r.history.outcomes.isEffective 4 = false ∧
      101 ∈ r.history.tombstoned := by
  have hrun : ∃ r ∈ foldAccountTraced (fun _ => 100) readmitted, r.history.classification = .live ∧
      r.history.outcomes.isEffective 2 = true ∧ r.history.outcomes.isEffective 4 = false ∧
      ∃ c ∈ candidatesOf readmitted, r.history.outcomes.isEffective c.hash = true ∧ c.removes = some 101 := by
    decide +kernel
  obtain ⟨r, hr, hlive, henrolled, hagain, hremoved⟩ := hrun
  exact ⟨r, hr, hlive, henrolled, hagain, ((one_enrollment_per_device hr hlive).2.1 101).mpr hremoved⟩

/-! ## 3. Where authority comes from -/

/-- Authority citations down to the genesis `g`, each of an effective owner mint of the signer. -/
inductive Authorized (cs : List Candidate) (o : Outcomes) (g : EntryHash) : Candidate → Prop where
  | genesis {c : Candidate} (h : c.hash = g) : Authorized cs o g c
  | cites {c mint : Candidate} (href : c.header.authorityRef = some mint.hash) (hmem : mint ∈ cs)
      (hmint : mint.isMint = true) (heff : o.isEffective mint.hash = true)
      (hdev : mint.subjectDevice = c.header.deviceFingerprint) (h : Authorized cs o g mint) : Authorized cs o g c

theorem Lawful.authorized (h : Lawful (contextOf entries genesis).incarnations led)
    (hg : genesis ∈ led) (hsub : led ⊆ candidatesOf entries)
    (hkeep : ∀ c ∈ led, c.isRoster = true → o.isEffective c.hash = true)
    (hled : led = pre ++ c :: post) : Authorized (candidatesOf entries) o genesis.hash c := by
  have hd := candidatesOf_distinct entries
  -- by induction on the entries before it
  induction hn : pre.length using Nat.strong_induction_on generalizing pre c post with
  | _ n ih =>
    by_cases hne : c.hash = genesis.hash
    · exact .genesis hne
    obtain ⟨⟨id, mint, hid, hmint, hdev, hauthor⟩, hopens, -, -⟩ := h pre c post hled
    obtain ⟨hmem, hmm, rfl⟩ := (find?_key_eq_some_iff hd).mp hmint
    have href : c.header.authorityRef = some mint.hash := by
      unfold authorIncarnationId at hid
      split at hid
      · -- another genesis is written under itself, and nothing comes before it
        rename_i pubkey hop
        rw [hopens pubkey hop] at hauthor
        exact absurd ((some.inj hid).trans (hauthor.resolve_right not_mem_nil)) hne
      · exact hid
    rcases hauthor with hroot | hbefore
    · obtain rfl := hd.eq_of_hash hmem (hsub hg) hroot
      exact .cites href hmem hmm (hkeep mint hg (isMint_isRoster hmm)) hdev (.genesis rfl)
    obtain ⟨pre', post', rfl⟩ := append_of_mem hbefore
    have hled' : led = pre' ++ mint :: (post' ++ c :: post) := by simp [hled]
    have hin : mint ∈ led := hled' ▸ mem_append_right _ mem_cons_self
    refine .cites href hmem hmm (hkeep mint hin (isMint_isRoster hmm)) hdev (ih _ ?_ hled' rfl)
    rw [← hn, length_append, length_cons]
    omega

/-- **No authority is laundered.** In a fold that ends live every effective entry but the genesis has a chain
    of authority citations to the genesis, over effective owner mints of the signers, and the final registers
    are clear of it. -/
theorem no_authority_laundering (hrun : foldAccountTraced sha256 entries = some r)
    (hlive : r.history.classification = .live) :
    ∀ c ∈ candidatesOf entries, r.history.outcomes.isEffective c.hash = true →
      ∃ g t, r.history.genesisHash = some g ∧ r.trace = some t ∧ (c.hash ≠ g →
        Authorized (candidatesOf entries) r.history.outcomes g c ∧
          registerVerdict c t.registers (headersOf (dedupByHash [] entries)) = .clear) := by
  intro c hc hce
  obtain ⟨inc, led, hlaw, hsub, heff, hkeep, -, -, hground, hgen, -⟩ := live_ledger hrun hlive
  have hled := heff c hc hce
  obtain ⟨genesis, t, rfl, hg, hhash, htrace, hclear, -⟩ := hground c hled
  obtain ⟨pre, post, hsplit⟩ := append_of_mem hled
  exact ⟨genesis.hash, t, hhash, htrace, fun hne => ⟨hlaw.authorized (hgen _ hg).1 hsub hkeep hsplit, hclear hne⟩⟩

/-- An entry of another device: as `founderEntry`, with its signer and without a cited length. -/
def ownerEntry (device : DeviceFingerprint) (h : EntryHash) (seq : Nat) (prev : Option EntryHash) (auth : OwnerId)
    (op : AccountOp) : VerifiedAccountEntry :=
  ⟨⟨7, 0, device, seq, prev, none, 1, 0, 0, some auth⟩, .known op, 7, h⟩

/-- A founder enrolls an owner, which enrolls another, which enrolls a member. -/
def handedOn : List VerifiedAccountEntry :=
  [founderEntry 1 0 none none 0 (.accountGenesis []),
   ownerEntry 100 2 1 (some 1) 1 (.deviceAdd 101 .owner),
   ownerEntry 101 3 0 none 2 (.deviceAdd 102 .owner),
   ownerEntry 102 4 0 none 3 (.deviceAdd 103 .member)]

/-- The member is authorized over the three mints. -/
theorem handed_on_authorized :
    ∃ r c t, foldAccountTraced (fun _ => 100) handedOn = some r ∧ c ∈ candidatesOf handedOn ∧ c.hash = 4 ∧
      Authorized (candidatesOf handedOn) r.history.outcomes 1 c ∧ r.trace = some t ∧
      registerVerdict c t.registers (headersOf (dedupByHash [] handedOn)) = .clear := by
  have hrun : ∃ r ∈ foldAccountTraced (fun _ => 100) handedOn, r.history.classification = .live ∧
      r.history.genesisHash = some 1 ∧ ∃ c ∈ candidatesOf handedOn, c.hash = 4 ∧
        r.history.outcomes.isEffective c.hash = true := by
    decide +kernel
  obtain ⟨r, hr, hlive, hgenesis, c, hc, hhash, heff⟩ := hrun
  obtain ⟨g, t, hg, ht, h⟩ := no_authority_laundering hr hlive c hc heff
  cases hgenesis.symm.trans hg
  obtain ⟨hauth, hclear⟩ := h (by rw [hhash]; decide)
  exact ⟨r, c, t, hr, hc, hhash, hauth, ht, hclear⟩

end Fold

end RagRat.Account
