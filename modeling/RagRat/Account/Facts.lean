/-
  File:      RagRat/Account/Facts.lean
  Subject:   THE AUTHORITY FACTS: what the effective entries, walked in the order of their epochs, say of the
             roster, the owner incarnations, the streams and the grants.

  A device removed or demoted keeps what its registers leave it: the boundary of a closed fact is the final
  register of its chain, not the cut the closing op named.
-/
import RagRat.Account.Closure

namespace RagRat.Account

open Lib.Register Lib.Keyed
open Function

/-! ## 1. Facts -/

/-- The valid prefix of a chain. -/
inductive AuthorityBoundary where
  | open_
  | cut (seq : Nat) (hash : EntryHash)
  | closed
  deriving DecidableEq

/-- The boundary a cut leaves. -/
def boundaryFromCut : Cut → AuthorityBoundary
  | .empty => .closed
  | .at seq hash => .cut seq hash

/-- An enrollment, and when it was closed. -/
structure RosterFact where
  deviceFingerprint : DeviceFingerprint
  currentRole : DeviceRole
  effectiveAt : Nat
  closedAt : Option Nat := none
  controlBoundary : AuthorityBoundary := .open_
  secretsBoundary : AuthorityBoundary := .open_
  contentBoundaries : StreamId → Option AuthorityBoundary := fun _ => none

/-- An incarnation, and when it was closed. -/
structure OwnerIncarnationFact where
  deviceFingerprint : DeviceFingerprint
  effectiveAt : Nat
  closedAt : Option Nat := none
  controlBoundary : AuthorityBoundary := .open_
  secretsBoundary : AuthorityBoundary := .open_
  deriving DecidableEq

/-- Who owns a stream, and since when. -/
structure StreamOwnershipFact where
  ownId : EntryHash
  effectiveAt : Nat
  deriving DecidableEq

/-- A grant, and when it was closed. -/
structure GrantFact where
  streamId : StreamId
  granteeAccountId : AccountId
  role : GrantRole
  effectiveAt : Nat
  closedAt : Option Nat := none
  deriving DecidableEq

/-- **What the account says of authority.** -/
structure AuthorityFacts where
  rosterRefs : RosterRef → Option RosterFact := fun _ => none
  ownerIncarnations : OwnerId → Option OwnerIncarnationFact := fun _ => none
  streamOwnership : StreamId → Option StreamOwnershipFact := fun _ => none
  grants : GrantId → Option GrantFact := fun _ => none
  grantCuts : GrantId → Option (List DeviceCut) := fun _ => none

namespace AuthorityFacts

/-- Change one enrollment. -/
def modifyRoster (f : AuthorityFacts) (ref : RosterRef) (g : RosterFact → RosterFact) :
    AuthorityFacts :=
  { f with rosterRefs := update f.rosterRefs ref ((f.rosterRefs ref).map g) }

/-- Change one incarnation. -/
def modifyOwner (f : AuthorityFacts) (id : OwnerId)
    (g : OwnerIncarnationFact → OwnerIncarnationFact) : AuthorityFacts :=
  { f with ownerIncarnations := update f.ownerIncarnations id ((f.ownerIncarnations id).map g) }

end AuthorityFacts

/-! ## 2. The walk -/

/-- The facts, and the enrollment and open incarnation of each device. -/
structure FactsState where
  facts : AuthorityFacts := {}
  roster : DeviceFingerprint → Option RosterRef := fun _ => none
  owners : Owners := ∅

namespace FactsState

/-- A device is enrolled. -/
def enroll (s : FactsState) (ref : RosterRef) (d : DeviceFingerprint) (role : DeviceRole)
    (epoch : Nat) : FactsState :=
  { s with
    facts := { s.facts with
      rosterRefs := update s.facts.rosterRefs ref
        (some ⟨d, role, epoch, none, .open_, .open_, fun _ => none⟩) }
    roster := update s.roster d (some ref) }

/-- An owner incarnation of a device opens. -/
def mint (s : FactsState) (id : OwnerId) (d : DeviceFingerprint) (epoch : Nat) : FactsState :=
  { s with
    facts := { s.facts with
      ownerIncarnations := update s.facts.ownerIncarnations id
        (some ⟨d, epoch, none, .open_, .open_⟩) }
    owners := s.owners.insert d id }

end FactsState

/-- The boundary a register draws; a chain without one is closed. -/
def registerBoundary (registers : Registers) (key : RegisterKey) : AuthorityBoundary :=
  (registers key).elim .closed boundaryFromCut

/-- A later cut of one stream replaces an earlier one. -/
def contentBoundariesOf (contentCuts : List ContentCut) : StreamId → Option AuthorityBoundary :=
  insertAll ContentCut.streamId (fun cut => some (.cut cut.seq cut.hash)) contentCuts fun _ => none

/-- The enrollment of a removed device is closed by its final registers. -/
def closeRoster (registers : Registers) (account : AccountId) (d : DeviceFingerprint)
    (contentCuts : List ContentCut) (epoch : Nat) (s : FactsState) : FactsState :=
  match s.roster d with
  | none => s
  | some ref =>
    { s with
      facts := s.facts.modifyRoster ref fun fact =>
        { fact with
          closedAt := some epoch
          controlBoundary := registerBoundary registers (.device account controlLog d)
          secretsBoundary := registerBoundary registers (.device account secretsLog d)
          contentBoundaries := contentBoundariesOf contentCuts }
      roster := update s.roster d none }

/-- The open incarnation of a removed device is closed. -/
def closeOwner (d : DeviceFingerprint) (epoch : Nat) (s : FactsState) : FactsState :=
  match s.owners.lookup d with
  | none => s
  | some id =>
    { s with
      facts := s.facts.modifyOwner id fun fact => { fact with closedAt := some epoch }
      owners := s.owners.erase d }

/-- A demotion of the open incarnation: the device stays enrolled as a member. -/
def demoteOwner (registers : Registers) (account : AccountId) (d : DeviceFingerprint)
    (id : OwnerId) (epoch : Nat) (s : FactsState) : FactsState :=
  let roster := (s.roster d).elim s.facts fun ref =>
    s.facts.modifyRoster ref fun fact => { fact with currentRole := .member }
  { s with
    facts := roster.modifyOwner id fun fact =>
      { fact with
        closedAt := some epoch
        controlBoundary := registerBoundary registers (.ownerIncarnation account controlLog d id)
        secretsBoundary := registerBoundary registers (.ownerIncarnation account secretsLog d id) }
    owners := s.owners.erase d }

/-- One effective entry at its epoch. -/
def factStep (registers : Registers) (s : FactsState) (x : Candidate × Nat) : FactsState :=
  let (c, epoch) := x
  let account := c.header.accountId
  match c.op with
  | .accountGenesis _ =>
    (s.enroll c.hash c.subjectDevice .owner epoch).mint c.hash c.subjectDevice epoch
  | .deviceAdd d role =>
    let enrolled := s.enroll c.hash d role epoch
    if role = .owner then enrolled.mint c.hash d epoch else enrolled
  | .ownerPromote d =>
    match s.roster d with
    | none => s
    | some ref =>
      let promoted := { s with
        facts := s.facts.modifyRoster ref fun fact => { fact with currentRole := .owner } }
      promoted.mint c.hash d epoch
  | .deviceRemove d _ _ contentCuts =>
    closeOwner d epoch (closeRoster registers account d contentCuts epoch s)
  | .ownerDemote d id _ _ =>
    if (closesOpenIncarnation c.op s.owners).isSome then demoteOwner registers account d id epoch s
    else s
  | .streamOwn streamId _ =>
    { s with facts := { s.facts with
        streamOwnership := update s.facts.streamOwnership streamId (some ⟨c.hash, epoch⟩) } }
  | .streamGrant streamId grantee role =>
    { s with facts := { s.facts with
        grants := update s.facts.grants c.hash (some ⟨streamId, grantee, role, epoch, none⟩) } }
  | .streamRevoke _ _ grantId deviceCuts =>
    match s.facts.grants grantId with
    | none => s
    | some grant =>
      { s with facts := { s.facts with
          grants := update s.facts.grants grantId (some { grant with closedAt := some epoch })
          grantCuts := update s.facts.grantCuts grantId (some deviceCuts) } }
  | .cutExtend _ _ _ _ _ _ | .accountReRoot _ => s

/-- A register of a device bounds every enrollment of it, also where no op closed it. -/
def projectRegisters (registers : Registers) (account : AccountId) (fact : RosterFact) :
    RosterFact :=
  let register := fun log => registers (.device account log fact.deviceFingerprint)
  { fact with
    controlBoundary := (register controlLog).elim fact.controlBoundary boundaryFromCut
    secretsBoundary := (register secretsLog).elim fact.secretsBoundary boundaryFromCut }

/-- The effective entries with their epochs, in the order of `(epoch, hash)`. -/
def effectiveInOrder (candidates : List Candidate) (o : Outcomes) : List (Candidate × Nat) :=
  sorted (fun x : Candidate × Nat => toLex (x.2, x.1.hash))
    (candidates.filterMap fun c => (o.authEpoch c.hash).map fun epoch => (c, epoch))

/-- The facts of an account. Its entries share one account id, so a device has one register a log. -/
def deriveAuthorityFacts (account : AccountId) (candidates : List Candidate) (o : Outcomes)
    (registers : Registers) : AuthorityFacts :=
  let walked := ((effectiveInOrder candidates o).foldl (factStep registers) {}).facts
  { walked with
    rosterRefs := fun ref => (walked.rosterRefs ref).map (projectRegisters registers account) }

end RagRat.Account
