/-
  File:      RagRat/Account/Ledger.lean
  Subject:   THE LEDGER OF A LIVE FOLD: its effective entries in the order of their epochs.

  * `Admitted`, `Lawful` -- what an entry of the ledger needs of those before it: a live author, a device that
    was neither enrolled nor removed, the enrollment its op promotes.
  * `Reflects` -- the fold's state says what the ledger did, kept by every effect.
-/
import Mathlib.Data.List.TakeWhile
import RagRat.Account.Readiness

namespace RagRat.Account

open List
open Lib.Register Lib.Keyed Lib.Loop
open Lib.Cbor (Bytes)
open FoldState Function Incarnations Option Outcomes

variable {ctx : FoldContext} {ex o : Outcomes} {d founder : DeviceFingerprint}
  {c genesis b : Candidate} {led done pre post cs : List Candidate} {inc : Incarnations}
  {v : FoldVerdicts} {s : FoldState × Outcomes} {i j epoch : Nat} {ref k : RosterRef}
  {registers : Registers}

/-! ## 1. What a ledger admits -/

/-- The device an op removes. -/
def Candidate.removes (c : Candidate) : Option DeviceFingerprint :=
  match c.op with
  | .deviceRemove d _ _ _ => some d
  | _ => none

/-- The op closes the incarnation: it removes the device, or demotes it by the mint. -/
def Candidate.closes (c mint : Candidate) : Bool :=
  match c.op with
  | .deviceRemove d _ _ _ => d = mint.subjectDevice
  | .ownerDemote d id _ _ => d = mint.subjectDevice ∧ id = mint.hash
  | _ => false

open Candidate

/-- The op enrolls, promotes or removes a device. -/
def Candidate.isRoster (c : Candidate) : Bool :=
  match c.op with
  | .accountGenesis _ | .deviceAdd _ _ | .ownerPromote _ | .deviceRemove _ _ _ _ => true
  | _ => false

theorem isMint_isRoster (h : c.isMint = true) : c.isRoster = true := by
  unfold isMint at h
  unfold isRoster
  split at h <;> simp_all

theorem enrolls_isRoster (h : c.enrolls = some d) : c.isRoster = true := by
  unfold enrolls at h
  unfold isRoster
  split at h <;> simp_all

theorem removes_isRoster (h : c.removes = some d) : c.isRoster = true ∧ c.enrolls = none := by
  unfold removes at h
  unfold isRoster enrolls
  split at h <;> simp_all

/-- The role an op enrolls its device with. -/
def Candidate.role (c : Candidate) : Option DeviceRole :=
  match c.op with
  | .accountGenesis _ => some .owner
  | .deviceAdd _ role => some role
  | _ => none

/-- What a ledger asks of its next entry. -/
structure Admitted (inc : Incarnations) (led : List Candidate) (c : Candidate) : Prop where
  author : ∃ id mint, authorIncarnationId c = some id ∧ inc.candidate id = some mint ∧
    mint.subjectDevice = c.header.deviceFingerprint ∧ (id = inc.genesisOwnerId ∨ mint ∈ led)
  opens : ∀ pubkey, c.op = .accountGenesis pubkey → led = []
  fresh : ∀ d, c.enrolls = some d → ∀ b ∈ led, b.enrolls ≠ some d ∧ b.removes ≠ some d
  promotes : ∀ d, c.op = .ownerPromote d →
    ∃ b ∈ led, b.enrolls = some d ∧ b.role.any DeviceRole.canAuthorContent = true

/-- Every entry is admitted by those before it. -/
def Lawful (inc : Incarnations) (led : List Candidate) : Prop :=
  ∀ pre c post, led = pre ++ c :: post → Admitted inc pre c

theorem Lawful.concat (h : Lawful inc led) (hc : Admitted inc led c) : Lawful inc (led ++ [c]) := by
  intro pre b post heq
  rcases eq_nil_or_concat post with rfl | ⟨post, x, rfl⟩
  · obtain ⟨rfl, hb⟩ := append_inj' heq rfl
    cases hb
    exact hc
  · rw [concat_eq_append, ← cons_append, ← append_assoc] at heq
    exact h pre b post (append_inj' heq rfl).1

/-! ## 2. The state reflects the ledger -/

section Reflects

variable {g : OwnerId} {state : FoldState}

/-- The state says what the ledger did. -/
structure Reflects (g : OwnerId) (led : List Candidate) (state : FoldState) : Prop where
  start : led = [] → state = seeded g
  next : state.nextAuthEpoch = led.length
  live : ∀ id ∈ state.live, id = g ∨ ∃ m ∈ led, m.isMint = true ∧ m.hash = id
  enrolled : ∀ d, (∃ b ∈ led, b.enrolls = some d) ↔ (state.roster d).isSome ∨ d ∈ state.tombstoned
  removed : ∀ d, d ∈ state.tombstoned ↔ ∃ b ∈ led, b.removes = some d
  roles : ∀ d role, state.enrollmentRoles d = some role → ∃ b ∈ led, b.enrolls = some d ∧ b.role = some role

theorem reflects_seeded (g : OwnerId) : Reflects g [] (seeded g) where
  start _ := rfl
  next := rfl
  live id hid := Or.inl (Finset.mem_singleton.mp hid)
  enrolled d := by simp [seeded]
  removed d := by simp [seeded]
  roles d role h := by cases h

theorem exists_concat {P : Candidate → Prop} : (∃ b ∈ led ++ [c], P b) ↔ (∃ b ∈ led, P b) ∨ P c := by
  simp [or_and_right, exists_or]

theorem next_enact : (state.enact c).nextAuthEpoch = state.nextAuthEpoch + 1 := by
  unfold enact applyEffect
  cases c.op with
  | deviceAdd d role => by_cases h : role = .owner <;> simp [h, takeEpoch]
  | ownerDemote d id cc sc =>
    dsimp only
    split <;> rfl
  | _ => rfl

theorem tombstoned_enact (d : DeviceFingerprint) :
    d ∈ (state.enact c).tombstoned ↔ d ∈ state.tombstoned ∨ c.removes = some d := by
  unfold enact applyEffect takeEpoch removes
  cases c.op with
  | deviceAdd e role => by_cases hrole : role = .owner <;> simp [hrole]
  | deviceRemove e cc sc cuts => simp [or_comm, eq_comm]
  | ownerDemote e id cc sc =>
    dsimp only
    split <;> simp
  | _ => simp

theorem roster_of_removes (hadmits : classifyOp c state = .effective) (d : DeviceFingerprint)
    (hd : c.removes = some d) : (state.roster d).isSome := by
  unfold removes at hd
  unfold classifyOp at hadmits
  split at hd
  · rename_i e cc sc cuts hop
    cases hd
    by_contra hno
    simp [hop, hno] at hadmits
  · cases hd

theorem enrollment_enact (d : DeviceFingerprint) :
    (c.enrolls = some d ∧ (state.enact c).roster d = some c.hash ∧ (state.enact c).enrollmentRoles d = c.role) ∨
    (c.removes = some d ∧ (state.enact c).enrollmentRoles d = none) ∨
    (c.enrolls ≠ some d ∧ c.removes ≠ some d ∧ (state.enact c).roster d = state.roster d ∧
      (state.enact c).enrollmentRoles d = state.enrollmentRoles d) := by
  unfold enact applyEffect takeEpoch enrolls removes role
  cases hop : c.op with
  | accountGenesis pubkey =>
    rcases eq_or_ne d c.header.deviceFingerprint with rfl | hd
    · simp [subjectDevice, hop]
    · simp [subjectDevice, hop, update_of_ne hd, Ne.symm hd]
  | deviceAdd e role =>
    rcases eq_or_ne d e with rfl | hd
    · by_cases hrole : role = .owner <;> simp [hrole]
    · by_cases hrole : role = .owner <;> simp [hrole, update_of_ne hd, Ne.symm hd]
  | deviceRemove e cc sc cuts =>
    rcases eq_or_ne d e with rfl | hd
    · simp
    · simp [update_of_ne hd, Ne.symm hd]
  | ownerDemote e id cc sc =>
    dsimp only
    split <;> simp
  | _ => simp

theorem roster_enact (h : ∀ d, c.removes = some d → (state.roster d).isSome) (d : DeviceFingerprint) :
    ((state.enact c).roster d).isSome ∨ d ∈ (state.enact c).tombstoned ↔
      ((state.roster d).isSome ∨ d ∈ state.tombstoned) ∨ c.enrolls = some d := by
  rw [tombstoned_enact]
  rcases @enrollment_enact c state d with ⟨hd, heq, -⟩ | ⟨hd, -⟩ | ⟨hen, hrem, heq, -⟩
  · simp [hd, heq]
  · simp [hd, h d hd]
  · simp [hen, hrem, heq]

variable (h : Reflects g led state) (hadmits : classifyOp c state = .effective)

include h hadmits

theorem Reflects.enact : Reflects g (led ++ [c]) (state.enact c) where
  start hnil := by simp at hnil
  next := by rw [next_enact, h.next, length_append, length_singleton]
  live id hid := by
    rcases live_enact.mp hid with hold | ⟨rfl, hmint⟩
    · exact (h.live id hold).imp_right fun ⟨m, hm, hid⟩ => ⟨m, mem_append_left _ hm, hid⟩
    · exact Or.inr ⟨c, by simp, hmint, rfl⟩
  enrolled d := by
    exact exists_concat.trans (((or_congr_left (h.enrolled d)).trans (roster_enact (roster_of_removes hadmits) d).symm))
  removed d := (tombstoned_enact d).trans ((or_congr_left (h.removed d)).trans exists_concat.symm)
  roles d role hrole := by
    rcases @enrollment_enact c state d with ⟨hd, -, heq⟩ | ⟨-, heq⟩ | ⟨-, -, -, heq⟩
    · exact ⟨c, by simp, hd, heq ▸ hrole⟩
    · simp [heq] at hrole
    · obtain ⟨b, hb, hbd⟩ := h.roles d role (heq ▸ hrole)
      exact ⟨b, mem_append_left _ hb, hbd⟩

theorem Reflects.promotes (hop : c.op = .ownerPromote d) :
    ∃ b ∈ led, b.enrolls = some d ∧ b.role.any DeviceRole.canAuthorContent = true := by
  cases hrole : state.enrollmentRoles d with
  | none => simp [classifyOp, hop, hrole] at hadmits
  | some role =>
    obtain ⟨b, hb, hd, hbrole⟩ := h.roles d role hrole
    refine ⟨b, hb, hd, ?_⟩
    by_contra hno
    rw [hbrole] at hno
    simp only [Option.any_some] at hno
    simp [classifyOp, hop, hrole, hno] at hadmits

theorem Reflects.fresh (hgen : ∀ pubkey, c.op = .accountGenesis pubkey → led = [])
    (hd : c.enrolls = some d) : ∀ b ∈ led, b.enrolls ≠ some d ∧ b.removes ≠ some d := by
  intro b hb
  unfold enrolls at hd
  unfold classifyOp at hadmits
  split at hd
  · rename_i pubkey hop
    rw [hgen pubkey hop] at hb
    cases hb
  · rename_i d' role hop
    cases hd
    have htomb : d ∉ state.tombstoned := fun hs => by simp [hop, hs] at hadmits
    have hroster : ¬ (state.roster d).isSome := fun hs => by simp [hop, htomb, hs] at hadmits
    refine ⟨fun hen => ?_, fun hrem => htomb ((h.removed d).mpr ⟨b, hb, hrem⟩)⟩
    exact ((h.enrolled d).mp ⟨b, hb, hen⟩).elim hroster htomb
  · cases hd

end Reflects

/-! ## 3. A replay enters its effects -/

section Run

/-- What a replay has come to when it has judged `done`. -/
structure Entered (inc : Incarnations) (v : FoldVerdicts) (done led : List Candidate)
    (s : FoldState × Outcomes) : Prop where
  reflects : Reflects inc.genesisOwnerId led s.1
  lawful : Lawful inc led
  sublist : led.Sublist done
  undecided : ∀ b ∈ led, v.decided b.hash = none
  rooted : ∀ b ∈ done, b.hash = inc.genesisOwnerId → b ∈ led
  epoch : ∀ b ∈ done, ∀ e, s.2.authEpoch b.hash = some e ↔ led[e]? = some b

theorem Entered.nil_of_genesis (hr : Rooted ctx) (h : Entered ctx.incarnations v done led s)
    (hc : c ∈ ctx.candidates) (hg : c.hash = ctx.rootId)
    (hfirst : ∀ b ∈ done, b.header.deviceFingerprint ≠ c.header.deviceFingerprint) : led = [] := by
  cases hled : led with
  | nil => rfl
  | cons b rest =>
    subst hled
    obtain ⟨id, mint, -, hmint, hdev, hid⟩ := (h.lawful [] b rest rfl).author
    obtain ⟨hmem, -, hhash⟩ := (find?_key_eq_some_iff hr.distinct).mp hmint
    obtain rfl : id = ctx.rootId := hid.resolve_right not_mem_nil
    obtain rfl := hr.distinct.eq_of_hash hmem hc (hhash.trans hg.symm)
    obtain ⟨pubkey, hop⟩ := (hr.root mint hmem hhash).op
    refine absurd ?_ (hfirst b (h.sublist.subset mem_cons_self))
    rw [← hdev, subjectDevice, hop]

variable (hv : v.Refuses ctx.rootId) (hr : Rooted ctx)

include hv hr

theorem genesis_enacts (hc : c ∈ ctx.candidates) (hg : c.hash = ctx.rootId)
    (o : Outcomes) :
    (effectStep ctx.incarnations v (seeded ctx.rootId, o) c).2 c.hash =
      some (.effective 0) := by
  have hroot := hr.root c hc hg
  obtain ⟨pubkey, hop⟩ := hroot.op
  have hmint : ctx.incarnations.candidate c.hash = some c :=
    (find?_key_eq_some_iff hr.distinct).mpr ⟨hc, by simp [isMint, hop], rfl⟩
  have hdec : v.decided c.hash = none := hg ▸ hv.decided_genesis
  have hclass : classifyEffect c ctx.incarnations (seeded ctx.rootId)
      v.parked = .effective := by
    have hauthor : authorIncarnationId c = some c.hash := by
      simp [authorIncarnationId, hop]
    have hsubject : c.subjectDevice = c.header.deviceFingerprint := by simp [subjectDevice, hop]
    have hlive : authorityStatus c ctx.incarnations
        (seeded ctx.rootId) v.parked = .live := by
      simp only [authorityStatus, hauthor, hmint, hsubject, ne_eq, not_true_eq_false, if_false]
      exact if_pos (Finset.mem_singleton.mpr hg)
    rw [classifyEffect, hlive]
    simp [classifyOp, hop, hroot.payload, seeded]
  simp only [effectStep, judge, hdec, hclass]
  exact insert_self _ _ _

theorem Entered.step (h : Entered ctx.incarnations v done led s) (hdone : done ⊆ ctx.candidates)
    (hc : c ∈ ctx.candidates) (hnew : ∀ b ∈ done, b.hash ≠ c.hash)
    (hfirst : c.hash = ctx.rootId → ∀ b ∈ done, b.header.deviceFingerprint ≠ c.header.deviceFingerprint) :
    ∃ led', Entered ctx.incarnations v (done ++ [c]) led' (effectStep ctx.incarnations v s c) := by
  have hold : ∀ x : Outcome, ∀ b ∈ done, ∀ e, (s.2.insert c.hash x).authEpoch b.hash = some e ↔
      led[e]? = some b := fun x b hb e => by
    rw [← h.epoch b hb e, authEpoch, insert_of_ne (hnew b hb), authEpoch]
  have hself : ∀ e, led[e]? ≠ some c := fun e he =>
    hnew c (h.sublist.subset (mem_of_getElem? he)) rfl
  rcases @effectStep_cases _ v s.1 ctx.incarnations hv s.2 c with ⟨x, hx, heq⟩ | ⟨henact, heq⟩
  · refine ⟨led, heq ▸ ⟨h.reflects, h.lawful, h.sublist.trans (sublist_append_left _ _),
      h.undecided, fun b hb hbg => ?_, fun b hb e => ?_⟩⟩
    · rcases mem_append.mp hb with hb | hb
      · exact h.rooted b hb hbg
      · obtain rfl := mem_singleton.mp hb
        -- the genesis is not refused: nothing is entered before it
        have hstart := h.reflects.start (h.nil_of_genesis hr hc hbg (hfirst hbg))
        have heff := genesis_enacts hv hr hc hbg s.2
        rw [← hstart] at heff
        rw [heq] at heff
        cases (insert_self _ _ _).symm.trans heff
        cases hx
    · rcases mem_append.mp hb with hb | hb
      · exact hold x b hb e
      · obtain rfl := mem_singleton.mp hb
        refine iff_of_false (fun he => ?_) (hself e)
        cases (insert_self _ _ _).symm.trans (authEpoch_iff.mp he)
        cases hx
  · obtain ⟨id, mint, hid, hmint, hdev, hlive⟩ := henact.author
    obtain ⟨hmem, -, hhash⟩ := (find?_key_eq_some_iff hr.distinct).mp hmint
    have hauthor : id = ctx.rootId ∨ mint ∈ led := by
      refine (h.reflects.live id hlive).imp_right fun ⟨m, hm, _, hmid⟩ => ?_
      rwa [hr.distinct.eq_of_hash hmem (hdone (h.sublist.subset hm)) (hhash.trans hmid.symm)]
    have hgen : ∀ pubkey, c.op = .accountGenesis pubkey → led = [] := by
      intro pubkey hop
      have hown : id = c.hash := by simpa [authorIncarnationId, hop] using hid.symm
      rcases h.reflects.live id hlive with hg | ⟨m, hm, -, hmid⟩
      · exact h.nil_of_genesis hr hc (hown ▸ hg) (hfirst (hown ▸ hg))
      · exact absurd (hmid.trans hown) (hnew m (h.sublist.subset hm))
    refine ⟨led ++ [c], heq ▸ ⟨h.reflects.enact henact.admits, h.lawful.concat
      ⟨⟨id, mint, hid, hmint, hdev, hauthor⟩, hgen, fun d => h.reflects.fresh henact.admits hgen,
        fun d => h.reflects.promotes henact.admits⟩,
      h.sublist.append_right _, fun b hb => ?_, fun b hb hbg => ?_, fun b hb e => ?_⟩⟩
    · rcases mem_append.mp hb with hb | hb
      · exact h.undecided b hb
      · exact mem_singleton.mp hb ▸ henact.undecided
    · exact (mem_append.mp hb).elim (fun hb => mem_append_left _ (h.rooted b hb hbg))
        (mem_append_right _)
    · rw [List.getElem?_append]
      rcases mem_append.mp hb with hb | hb
      · rw [hold _ b hb e]
        have hbc : c ≠ b := fun hcb => hnew b hb (hcb ▸ rfl)
        split
        · rfl
        · rename_i hlen
          rw [List.getElem?_eq_none (by omega), List.getElem?_singleton]
          split <;> simp [hbc]
      · obtain rfl := mem_singleton.mp hb
        rw [authEpoch_iff]
        dsimp only
        rw [insert_self, h.reflects.next]
        split
        · exact iff_of_false (fun he => by cases he; omega) (hself e)
        rw [List.getElem?_singleton]
        split
        · rename_i hlen hzero
          exact iff_of_true (by rw [show e = led.length by omega]) rfl
        · exact iff_of_false (fun he => by cases he; omega) nofun

theorem Entered.run (rest : List Candidate) (h : Entered ctx.incarnations v done led s)
    (hsub : done ++ rest ⊆ ctx.candidates) (hnd : (done ++ rest).Nodup)
    (hfirst : ∀ pre b post, done ++ rest = pre ++ b :: post → b.hash = ctx.rootId → ∀ a ∈ pre, a.header.deviceFingerprint ≠ b.header.deviceFingerprint) :
    ∃ led', Entered ctx.incarnations v (done ++ rest) led'
      (rest.foldl (effectStep ctx.incarnations v) s) := by
  induction rest generalizing done led s with
  | nil => exact ⟨led, by rwa [append_nil]⟩
  | cons c rest ih =>
    have hc : c ∈ ctx.candidates := hsub (by simp)
    have hdone : done ⊆ ctx.candidates := fun b hb => hsub (mem_append_left _ hb)
    have hnew : ∀ b ∈ done, b.hash ≠ c.hash := fun b hb hbc => by
      obtain rfl := hr.distinct.eq_of_hash (hdone hb) hc hbc
      exact (nodup_append.mp hnd).2.2 b hb b mem_cons_self rfl
    obtain ⟨led', h'⟩ := h.step hv hr hdone hc hnew (hfirst done c rest rfl)
    rw [append_cons] at hsub hnd hfirst ⊢
    exact ih h' hsub hnd hfirst

end Run

/-! ## 4. The order of a replay -/

/-- The members of the strata in the order they are judged. -/
def judged (strata : List (Nat × List Candidate)) : List Candidate :=
  strata.flatMap fun x => sorted effectRank x.2

/-- The candidates in the order they are judged. -/
def judgedOrder (ex : Outcomes) (inc : Incarnations) (founder : DeviceFingerprint) : List Candidate :=
  judged (strataOf ex inc founder)

theorem mem_judgedOrder (h : c ∈ judgedOrder ex ctx.incarnations founder) :
    ∃ x ∈ strataOf ex ctx.incarnations founder, c ∈ x.2 := by
  obtain ⟨x, hx, hc⟩ := mem_flatMap.mp h
  exact ⟨x, hx, (mem_sorted effectRank).mp hc⟩

theorem strata_ascending : (strataOf ex ctx.incarnations founder).Pairwise fun x y => x.1 < y.1 :=
  List.Pairwise.filter _ (pairwise_map.mpr pairwise_lt_range)

/-- The one is judged before the other: of a lower depth, or of the same and lower rank. -/
def Incarnations.judgedBefore (inc : Incarnations) (b c : Candidate) : Bool :=
  match inc.authorDepth b, inc.authorDepth c with
  | some i, some j => i < j ∨ i = j ∧ b.effectRank < c.effectRank
  | _, _ => false

theorem judgedBefore_iff : inc.judgedBefore b c = true ↔ ∃ i j, inc.authorDepth b = some i ∧
    inc.authorDepth c = some j ∧ (i < j ∨ i = j ∧ b.effectRank < c.effectRank) := by
  unfold judgedBefore
  split <;> simp_all

theorem judgedOrder_subset : judgedOrder ex ctx.incarnations founder ⊆ ctx.candidates := fun _ hc => by
  obtain ⟨x, hx, hc⟩ := mem_judgedOrder hc
  exact (mem_strataOf hx hc).1

theorem judgedOrder_pairwise (hd : DistinctHashes ctx.candidates) :
    (judgedOrder ex ctx.incarnations founder).Pairwise fun a b => a ≠ b ∧ ctx.incarnations.judgedBefore a b = true := by
  refine pairwise_flatMap.mpr ⟨fun x hx => ?_, ?_⟩
  · have hnd : (sorted effectRank x.2).Nodup := by
      obtain ⟨d, -, rfl⟩ := mem_map.mp (mem_of_mem_filter hx)
      exact (sorted_perm effectRank _).nodup_iff.mpr (hd.nodup.filter _)
    refine (hnd.and (pairwise_sorted effectRank x.2)).imp_of_mem fun ha hb hab => ⟨hab.1, judgedBefore_iff.mpr ?_⟩
    obtain ⟨hac, -, hadepth⟩ := mem_strataOf hx ((mem_sorted _).mp ha)
    obtain ⟨hbc, -, hbdepth⟩ := mem_strataOf hx ((mem_sorted _).mp hb)
    refine ⟨x.1, x.1, hadepth, hbdepth, .inr ⟨rfl, lt_of_le_of_ne hab.2 fun heq => hab.1 ?_⟩⟩
    exact hd.eq_of_hash hac hbc (congrArg (fun r => (ofLex (ofLex r).2).2) heq)
  · refine strata_ascending.imp_of_mem fun hx hy hlt a ha b hb => ?_
    have ha := (mem_strataOf hx ((mem_sorted _).mp ha)).2.2
    have hb := (mem_strataOf hy ((mem_sorted _).mp hb)).2.2
    refine ⟨fun hab => ?_, judgedBefore_iff.mpr ⟨_, _, ha, hb, .inl hlt⟩⟩
    rw [hab, hb] at ha
    exact hlt.ne (some.inj ha).symm

section Genesis

variable (hr : Rooted ctx) (hg : genesis ∈ ctx.candidates)
  (hid : genesis.hash = ctx.rootId) (hfree : ex genesis.hash = none)

include hr hg hid hfree

theorem genesis_judged : genesis ∈ judgedOrder ex ctx.incarnations founder ∧
      ctx.incarnations.authorDepth genesis = some 0 := by
  obtain ⟨pubkey, hop⟩ := (hr.root genesis hg hid).op
  have hpos : 0 < ctx.candidates.length := length_pos_of_mem hg
  have hmint : ctx.incarnations.candidate genesis.hash = some genesis :=
    (find?_key_eq_some_iff hr.distinct).mpr ⟨hg, by simp [isMint, hop], rfl⟩
  have hdepth : ctx.incarnations.authorDepth genesis = some 0 := by
    have hauthor : authorIncarnationId genesis = some genesis.hash := by
      simp [authorIncarnationId, hop]
    obtain ⟨n, hn⟩ := Nat.exists_eq_succ_of_ne_zero hpos.ne'
    rw [authorDepth, hauthor, bind_some, incarnationDepth,
      show ctx.incarnations.candidates.length = n + 1 from hn, depthWithin, hmint]
    exact if_pos hid
  refine ⟨?_, hdepth⟩
  have hmember : genesis ∈ membersAt ex ctx.incarnations founder 0 := by
    refine mem_filter.mpr ⟨hg, ?_⟩
    rw [hid] at hfree
    simp [heldOut, hfree, hid, hdepth]
  refine mem_flatMap.mpr ⟨(0, membersAt ex ctx.incarnations founder 0), mem_filter.mpr
    ⟨mem_map.mpr ⟨0, mem_range.mpr hpos, rfl⟩, ?_⟩, (mem_sorted _).mpr hmember⟩
  simpa using ne_nil_of_mem hmember

theorem genesis_first (hfounder : genesis.header.deviceFingerprint = founder)
    (heq : judgedOrder ex ctx.incarnations founder = pre ++ genesis :: post) :
    ∀ a ∈ pre, a.header.deviceFingerprint ≠ genesis.header.deviceFingerprint := by
  intro a ha hdev
  have hpair := @judgedOrder_pairwise ctx ex founder hr.distinct
  rw [heq] at hpair
  obtain ⟨hne, hrank⟩ := (pairwise_append.mp hpair).2.2 a ha genesis mem_cons_self
  obtain ⟨i, j, -, hj, hlt⟩ := judgedBefore_iff.mp hrank
  cases (@genesis_judged ctx ex founder genesis hr hg hid hfree).2.symm.trans hj
  have hseq : a.header.seq = 0 := by
    have hchain := (Prod.Lex.toLex_lt_toLex.mp (hlt.resolve_left (Nat.not_lt_zero i)).2).resolve_left
      fun hlt => hlt.ne hdev
    have hseq' := Prod.Lex.toLex_lt_toLex.mp hchain.2
    rw [(hr.root genesis hg hid).seq] at hseq'
    omega
  obtain ⟨x, hx, hax⟩ := mem_judgedOrder (heq ▸ mem_append_left _ ha)
  obtain ⟨hac, hheld, -⟩ := mem_strataOf hx hax
  have hfree' := not_excluded_of_heldOut hheld
  by_cases hroot : a.hash = ctx.rootId
  · exact hne (hr.distinct.eq_of_hash hac hg (hroot.trans hid.symm))
  · simp [heldOut, hfree', hseq, hdev, hfounder, hroot] at hheld

end Genesis

end RagRat.Account
