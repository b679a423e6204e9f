/-
  File:      RagRat/Account/Effects.lean
  Subject:   THE EFFECT PASS of the account fold: who may act, what an op does, and the pass over one depth.

  * `Incarnations` -- the owner mints of the candidates and how deep each one's citations go.
  * `FoldState` -- the roster, the owners, the tombstones, the streams and the grants as they stand.
  * `authorityStatus`, `classifyEffect`, `applyEffect` -- an op is judged against the state and, if it is
    effective, changes it.
  * `effectPass` -- the candidates of one depth in the order of `(device, seq, hash)`.
-/
import Mathlib.Data.List.AList
import Mathlib.Data.Prod.Lex
import RagRat.Account.Entry
import RagRat.Lib.Register

namespace RagRat.Account

open Lib.Register
open Function

/-! ## 1. Outcomes -/

/-- Why an entry is condemned. -/
inductive CondemnedReason where
  | beyondCut | offBranch | closedIncarnation
  deriving DecidableEq

/-- Why an entry is rejected. -/
inductive RejectReason where
  | staleAuthority | genesisSelfHash | duplicateGenesis | duplicateAdd | tombstoneReAdd | badPromote
  | lastOwner | cutTargetMismatch | wrongDevice | malformed | nonGenesisOrigin | invalidStreamSpec
  | ineffective
  deriving DecidableEq

/-- What a parked entry waits for. -/
inductive ParkReason where
  | unknownOwnerRef | unknownCutTarget | incompleteCutAncestry | contestedSubject | authLenAhead
  | deferredStreamAuthorization
  deriving DecidableEq

/-- What the fold says of an entry. -/
inductive Outcome where
  | effective (authEpoch : Nat)
  | condemned (reason : CondemnedReason)
  | rejected (reason : RejectReason)
  | parked (reason : ParkReason)
  | retainedUnfolded
  deriving DecidableEq

/-- The entry has its effect. -/
def Outcome.isEffective : Outcome → Bool
  | .effective _ => true
  | _ => false

/-- The outcomes decided so far, by entry hash. -/
abbrev Outcomes := EntryHash → Option Outcome

/-- The entry of the hash has its effect. -/
def Outcomes.isEffective (o : Outcomes) (h : EntryHash) : Bool := (o h).any Outcome.isEffective

/-- One outcome set. -/
def Outcomes.insert (o : Outcomes) (h : EntryHash) (v : Outcome) : Outcomes :=
  update o h (some v)

/-! ## 2. Candidates -/

/-- An entry the fold folds, with its op. -/
structure Candidate where
  entry : VerifiedAccountEntry
  op : AccountOp
  deriving DecidableEq

namespace Candidate

def hash (c : Candidate) : EntryHash := c.entry.entryHash

def header (c : Candidate) : AccountEntryHeader := c.entry.header

/-- The op makes its subject an owner. -/
def isMint (c : Candidate) : Bool :=
  match c.op with
  | .accountGenesis _ | .deviceAdd _ .owner | .ownerPromote _ => true
  | _ => false

/-- The device an op is about. -/
def subjectDevice (c : Candidate) : DeviceFingerprint :=
  match c.op with
  | .deviceAdd d _ | .ownerPromote d | .deviceRemove d _ _ _ | .ownerDemote d _ _ _ => d
  | _ => c.header.deviceFingerprint

end Candidate

/-! ## 3. Incarnations -/

/-- The owner mints among the candidates, and the one the account is rooted in. -/
structure Incarnations where
  candidates : List Candidate
  genesisOwnerId : OwnerId

namespace Incarnations

/-- The mint of an owner incarnation. -/
def candidate (inc : Incarnations) (ownerId : OwnerId) : Option Candidate :=
  inc.candidates.find? fun c => c.isMint ∧ c.hash = ownerId

/-- How many citations lead to the genesis, followed for at most `steps` mints. -/
def depthWithin (inc : Incarnations) : Nat → OwnerId → Option Nat
  | 0, _ => none
  | steps + 1, ownerId =>
    match inc.candidate ownerId with
    | none => none
    | some mint =>
      if ownerId = inc.genesisOwnerId then some 0
      else
        match mint.header.authorityRef with
        | none => none
        | some parent => (inc.depthWithin steps parent).map (· + 1)

/-- `none` where the citations leave the account or run in a circle. The source keeps these in a
    table. -/
def incarnationDepth (inc : Incarnations) (ownerId : OwnerId) : Option Nat :=
  inc.depthWithin inc.candidates.length ownerId

/-- The incarnation a candidate acts under: its own for a genesis, the cited one otherwise. -/
def authorIncarnationId (c : Candidate) : Option OwnerId :=
  match c.op with
  | .accountGenesis _ => some c.hash
  | _ => c.header.authorityRef

/-- How deep the entry's author is. -/
def authorDepth (inc : Incarnations) (c : Candidate) : Option Nat :=
  (authorIncarnationId c).bind inc.incarnationDepth

end Incarnations

/-! ## 4. The state of the fold -/

/-- A grant as it stands. -/
structure LiveGrant where
  streamId : StreamId
  granteeAccountId : AccountId
  role : GrantRole
  open_ : Bool
  deriving DecidableEq

/-- The owner of each device that has one open. -/
abbrev Owners := AList fun _ : DeviceFingerprint => OwnerId

/-- **The state the effects work on**, and the next epoch. -/
structure FoldState where
  live : Finset OwnerId := ∅
  roster : DeviceFingerprint → Option RosterRef := fun _ => none
  enrollmentRoles : DeviceFingerprint → Option DeviceRole := fun _ => none
  owners : Owners := ∅
  tombstoned : Finset DeviceFingerprint := ∅
  genesisSeen : Bool := false
  nextAuthEpoch : Nat := 0
  streamOwnership : StreamId → Option EntryHash := fun _ => none
  publicStreams : Finset StreamId := ∅
  grants : AList (fun _ : GrantId => LiveGrant) := ∅

/-- Before the first effect: the genesis incarnation is live. -/
def FoldState.seeded (genesisOwnerId : OwnerId) : FoldState := { live := {genesisOwnerId} }

/-- The device whose open incarnation the op closes. -/
def closesOpenIncarnation (op : AccountOp) (owners : Owners) : Option DeviceFingerprint :=
  match op with
  | .deviceRemove d _ _ _ => if (owners.lookup d).isSome then some d else none
  | .ownerDemote d ownerId _ _ => if owners.lookup d = some ownerId then some d else none
  | _ => none

/-! ## 5. Authority -/

/-- What the author of an entry is to the state. -/
inductive AuthorityStatus where
  | live | unresolvable | wrongDevice | stale
  | parkedAuthorizer (reason : ParkReason)
  deriving DecidableEq

/-- Whether the author may act: the cited incarnation must be minted for the signer and be live. -/
def authorityStatus (c : Candidate) (inc : Incarnations) (state : FoldState)
    (parked : EntryHash → Option ParkReason) : AuthorityStatus :=
  match Incarnations.authorIncarnationId c with
  | none => .unresolvable
  | some authorInc =>
    match inc.candidate authorInc with
    | none => .unresolvable
    | some mint =>
      if mint.subjectDevice ≠ c.header.deviceFingerprint then .wrongDevice
      else if authorInc ∈ state.live then .live
      else
        match parked authorInc with
        | some reason => .parkedAuthorizer reason
        | none => .stale

/-- What an op would do. -/
inductive EffectVerdict where
  | effective
  | rejected (reason : RejectReason)
  | parked (reason : ParkReason)
  deriving DecidableEq

/-- The public stream an op takes ownership of. -/
def AccountOp.publicStream : AccountOp → Option StreamId
  | .streamOwn streamId (some spec) => if spec.accessMode = .publicRead then some streamId else none
  | _ => none

/-- What the state says to an op whose author may act. -/
def classifyOp (c : Candidate) (state : FoldState) : EffectVerdict :=
  match c.op with
  | .accountGenesis _ =>
    if state.genesisSeen then .rejected .duplicateGenesis
    else if c.entry.payloadAccountId ≠ c.header.accountId then .rejected .genesisSelfHash
    else .effective
  | .deviceAdd d _ =>
    if d ∈ state.tombstoned then .rejected .tombstoneReAdd
    else if (state.roster d).isSome then .rejected .duplicateAdd
    else .effective
  | .ownerPromote d =>
    if (state.roster d).isSome ∧ (state.enrollmentRoles d).any DeviceRole.canAuthorContent ∧
        ¬ (state.owners.lookup d).isSome ∧ d ∉ state.tombstoned then .effective
    else .rejected .badPromote
  | .streamOwn streamId spec =>
    if ¬ spec.any (fun s => s.ownerAccountId = c.header.accountId ∧ s.derivedId = some streamId) then
      .rejected .invalidStreamSpec
    else if (state.streamOwnership streamId).isSome then .rejected .ineffective
    else .effective
  | .streamGrant streamId grantee role =>
    let duplicate := state.grants.entries.any fun g =>
      g.2.open_ ∧ g.2.streamId = streamId ∧ g.2.granteeAccountId = grantee ∧ g.2.role = role
    if streamId ∉ state.publicStreams ∨ grantee = c.header.accountId ∨ duplicate then
      .rejected .ineffective
    else .effective
  | .streamRevoke streamId grantee grantId _ =>
    let matchesOpenGrant := (state.grants.lookup grantId).any fun g =>
      g.open_ ∧ g.streamId = streamId ∧ g.granteeAccountId = grantee
    if (state.streamOwnership streamId).isSome ∧ matchesOpenGrant then .effective
    else .rejected .ineffective
  | .accountReRoot _ => .rejected .ineffective
  | .deviceRemove d _ _ _ =>
    if (state.roster d).isSome then .effective else .rejected .ineffective
  | .ownerDemote _ _ _ _ => .effective
  | .cutExtend kind _ _ _ _ _ =>
    match kind with
    | .ctrl | .secrets => .effective
    | .content => .parked .deferredStreamAuthorization

/-- The author's authority first, then the state's preconditions. -/
def classifyEffect (c : Candidate) (inc : Incarnations) (state : FoldState)
    (parked : EntryHash → Option ParkReason) : EffectVerdict :=
  match authorityStatus c inc state parked with
  | .unresolvable => .parked .unknownOwnerRef
  | .wrongDevice => .rejected .wrongDevice
  | .stale => .rejected .staleAuthority
  | .parkedAuthorizer reason => .parked reason
  | .live => classifyOp c state

/-! ## 6. Effects -/

/-- The grant of an id is closed, if there is one. -/
def closeGrant (grants : AList fun _ : GrantId => LiveGrant) (id : GrantId) :
    AList fun _ : GrantId => LiveGrant :=
  match grants.lookup id with
  | some g => grants.insert id { g with open_ := false }
  | none => grants

/-- **What an effective op changes.** -/
def applyEffect (c : Candidate) (state : FoldState) : FoldState :=
  match c.op with
  | .accountGenesis _ =>
    { state with
      genesisSeen := true
      roster := update state.roster c.subjectDevice (some c.hash)
      enrollmentRoles := update state.enrollmentRoles c.subjectDevice (some .owner)
      owners := state.owners.insert c.subjectDevice c.hash
      live := insert c.hash state.live }
  | .deviceAdd d role =>
    let enrolled := { state with
      roster := update state.roster d (some c.hash)
      enrollmentRoles := update state.enrollmentRoles d (some role) }
    if role = .owner then
      { enrolled with owners := state.owners.insert d c.hash, live := insert c.hash state.live }
    else enrolled
  | .ownerPromote d =>
    { state with owners := state.owners.insert d c.hash, live := insert c.hash state.live }
  | .streamOwn streamId _ =>
    { state with
      streamOwnership := update state.streamOwnership streamId (some c.hash)
      publicStreams := match c.op.publicStream with
        | some s => insert s state.publicStreams
        | none => state.publicStreams }
  | .streamGrant streamId grantee role =>
    { state with grants := state.grants.insert c.hash ⟨streamId, grantee, role, true⟩ }
  | .streamRevoke _ _ grantId _ => { state with grants := closeGrant state.grants grantId }
  | .deviceRemove d _ _ _ =>
    { state with
      roster := update state.roster d none
      enrollmentRoles := update state.enrollmentRoles d none
      owners := state.owners.erase d
      tombstoned := insert d state.tombstoned }
  | .ownerDemote d _ _ _ =>
    if (closesOpenIncarnation c.op state.owners).isSome then
      { state with owners := state.owners.erase d }
    else state
  | .cutExtend _ _ _ _ _ _ | .accountReRoot _ => state

/-- One effective verdict, and the position it takes. -/
def FoldState.takeEpoch (state : FoldState) : Outcome × FoldState :=
  (.effective state.nextAuthEpoch, { state with nextAuthEpoch := state.nextAuthEpoch + 1 })

/-! ## 7. The pass over one depth -/

/-- What the registers have decided about candidates. -/
structure FoldVerdicts where
  condemned : EntryHash → Option CondemnedReason := fun _ => none
  parked : EntryHash → Option ParkReason := fun _ => none
  cutVerdicts : EntryHash → Option Outcome := fun _ => none

/-- A verdict of the registers, if there is one: it comes before any effect. -/
def FoldVerdicts.decided (v : FoldVerdicts) (h : EntryHash) : Option Outcome :=
  ((v.condemned h).map .condemned).or (((v.parked h).map .parked).or (v.cutVerdicts h))

/-- The outcome of one candidate and the state after it. -/
def judge (inc : Incarnations) (verdicts : FoldVerdicts) (state : FoldState) (c : Candidate) :
    Outcome × FoldState :=
  match verdicts.decided c.hash with
  | some outcome => (outcome, state)
  | none =>
    match classifyEffect c inc state verdicts.parked with
    | .effective =>
      let (outcome, state') := state.takeEpoch
      (outcome, applyEffect c state')
    | .rejected reason => (.rejected reason, state)
    | .parked reason => (.parked reason, state)

/-- One candidate: its outcome, and the state after it. -/
def effectStep (inc : Incarnations) (verdicts : FoldVerdicts) (s : FoldState × Outcomes)
    (c : Candidate) : FoldState × Outcomes :=
  let (outcome, state) := judge inc verdicts s.1 c
  (state, s.2.insert c.hash outcome)

/-- The order of the effects of a depth: by chain, along the chain, then by hash. -/
def Candidate.effectRank (c : Candidate) : DeviceFingerprint ×ₗ Nat ×ₗ EntryHash :=
  toLex (c.header.deviceFingerprint, toLex (c.header.seq, c.hash))

/-- The candidates of one depth, in order. -/
def effectPass (inc : Incarnations) (verdicts : FoldVerdicts) (members : List Candidate)
    (s : FoldState × Outcomes) : FoldState × Outcomes :=
  (sorted Candidate.effectRank members).foldl (effectStep inc verdicts) s

end RagRat.Account
