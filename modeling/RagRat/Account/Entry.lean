/-
  File:      RagRat/Account/Entry.lean
  Subject:   THE ACCOUNT LOG: entries, their ops, the cuts a revocation names and how an entry lies to a cut.

  * `VerifiedAccountEntry` -- a signed entry that passed its checks; its payload is kept as what `decode`
    makes of it.
  * `Cut` -- how far a chain is kept; `ancestry` -- whether an entry lies on the branch a cut names, walked
    back along `prev_hash`.
  * `joinCuts` -- two cuts of one chain, joined if one branch holds both.
  * `RegisterKey.scopes` -- the entries a revocation register speaks about.

  A `u64` counter is a `Nat`; where the source saturates or checks an addition, the model does too.
-/
import Mathlib.Data.Finset.Basic
import RagRat.Common

namespace RagRat.Account

/-! ## 1. Identities -/

/-- An account. -/
abbrev AccountId := Bytes32

/-- An owner incarnation, by the entry that mints it. -/
abbrev OwnerId := EntryHash

/-- An enrollment, by its entry. -/
abbrev RosterRef := EntryHash

/-- A grant, by its entry. -/
abbrev GrantId := EntryHash

/-- The log that says who may do what. -/
def controlLog : Nat := 0

/-- The log of secrets. -/
def secretsLog : Nat := 1

/-- The version of ordinary ops. -/
def supportedOpVersion : Nat := 1

/-- The version of control ops under a pin. -/
def controlVersion : Nat := 2

/-! ## 2. Ops -/

/-- What a device is enrolled as. -/
inductive DeviceRole where
  | readOnly | member | owner
  deriving DecidableEq

/-- The role may write. -/
def DeviceRole.canAuthorContent : DeviceRole → Bool
  | .member | .owner => true
  | .readOnly => false

/-- What another account is granted. -/
inductive GrantRole where
  | reader | writer
  deriving DecidableEq

/-- The kind of chain an extend names. -/
inductive ChainKind where
  | ctrl | secrets | content
  deriving DecidableEq

/-- How far a chain is kept: nothing of it, or up to the entry `hash` at `seq`. -/
inductive Cut where
  | empty
  | at (seq : Nat) (hash : EntryHash)
  deriving DecidableEq

/-- The watermark. -/
def Cut.hash : Cut → Option EntryHash
  | .empty => none
  | .at _ h => some h

/-- The entry lies after the cut. -/
def beyond (entrySeq : Nat) : Cut → Bool
  | .empty => true
  | .at seq _ => entrySeq > seq

/-- A cut on a device's chain in one stream. -/
structure ContentCut where
  streamId : StreamId
  seq : Nat
  hash : EntryHash
  deriving DecidableEq

/-- A cut on a device's chain. -/
structure DeviceCut where
  deviceFingerprint : DeviceFingerprint
  seq : Nat
  hash : EntryHash
  deriving DecidableEq

/-- Who may read a stream. -/
inductive AccessMode where
  | private_ | publicRead
  deriving DecidableEq

/-- A stream spec as `decode_spec_v2` reads it, with the id `derive_v2` gives it. -/
structure StreamSpecV2 where
  ownerAccountId : AccountId
  accessMode : AccessMode
  derivedId : Option StreamId
  deriving DecidableEq

/-- The ten control-log ops. A `streamOwn` carries its spec decoded, `none` if it does not decode. -/
inductive AccountOp where
  | accountGenesis (ed25519Pubkey : Lib.Cbor.Bytes)
  | deviceAdd (device : DeviceFingerprint) (role : DeviceRole)
  | deviceRemove (device : DeviceFingerprint) (controlCut secretsCut : Cut)
      (contentCuts : List ContentCut)
  | ownerPromote (device : DeviceFingerprint)
  | ownerDemote (device : DeviceFingerprint) (ownerId : OwnerId) (controlCut secretsCut : Cut)
  | cutExtend (chainKind : ChainKind) (incarnationId : Option EntryHash)
      (subjectAccountId : AccountId) (device : DeviceFingerprint) (newSeq : Nat)
      (newEntryHash : EntryHash)
  | streamOwn (streamId : StreamId) (spec : Option StreamSpecV2)
  | streamGrant (streamId : StreamId) (granteeAccountId : AccountId) (grantRole : GrantRole)
  | streamRevoke (streamId : StreamId) (granteeAccountId : AccountId) (grantId : GrantId)
      (deviceCuts : List DeviceCut)
  | accountReRoot (successorAccountId : AccountId)
  deriving DecidableEq

/-- What `decode` makes of a payload under its header's entry type. -/
inductive DecodedAccountOp where
  | malformed
  | unknown
  | known (op : AccountOp)
  deriving DecidableEq

/-- The header of a signed entry. -/
structure AccountEntryHeader where
  accountId : AccountId
  logId : Nat
  deviceFingerprint : DeviceFingerprint
  seq : Nat
  prevHash : Option EntryHash
  parentRef : Option EntryHash
  opVersion : Nat
  cryptoSuite : Nat
  authLen : Nat
  authorityRef : Option OwnerId
  deriving DecidableEq

/-- A decoded and verified entry, with the account id its payload hashes to. -/
structure VerifiedAccountEntry where
  header : AccountEntryHeader
  decoded : DecodedAccountOp
  payloadAccountId : AccountId
  entryHash : EntryHash
  deriving DecidableEq

/-! ## 3. Chains -/

/-- The chain an entry is on. -/
structure CutCoordinate where
  account : AccountId
  log : Nat
  device : DeviceFingerprint
  deriving DecidableEq

/-- The chain it is on. -/
def AccountEntryHeader.coordinate (h : AccountEntryHeader) : CutCoordinate :=
  ⟨h.accountId, h.logId, h.deviceFingerprint⟩

/-- The headers the fold holds, by entry hash. -/
abbrev HeaderView := EntryHash → Option AccountEntryHeader

/-- Where a walk back ends. -/
inductive WalkEnd where
  | origin | missingLink | forgedLink | stopped
  deriving DecidableEq

/-- The walk back along `prev_hash` until `stop`; the head's `seq` bounds the steps. -/
def walkBackFrom (lookup : HeaderView) (chain : CutCoordinate) (stop : EntryHash → Bool) :
    Nat → List EntryHash → EntryHash → WalkEnd
  | 0, _, _ => .missingLink
  | steps + 1, visited, current =>
    match lookup current with
    | none => .missingLink
    | some header =>
      if header.coordinate ≠ chain then .forgedLink
      else if stop current then .stopped
      else if current ∈ visited then .forgedLink
      else
        match header.prevHash with
        | none => .origin
        | some prev =>
          if (lookup prev).any (fun p => p.seq + 1 ≠ header.seq) then .forgedLink
          else walkBackFrom lookup chain stop steps (current :: visited) prev

/-- The walk from a watermark. -/
def walkBack (lookup : HeaderView) (watermark : EntryHash) (stop : EntryHash → Bool) : WalkEnd :=
  match lookup watermark with
  | none => .missingLink
  | some head => walkBackFrom lookup head.coordinate stop (head.seq + 2) [] watermark

/-! ## 4. An entry and a cut -/

/-- How an entry lies to a cut's branch. -/
inductive AncestryRelation where
  | onBranch | offBranch | unknownCutTarget | incompleteCutAncestry
  deriving DecidableEq

/-- Whether `target` lies on the branch the cut names. -/
def ancestry (target : EntryHash) (cut : Cut) (view : HeaderView) : AncestryRelation :=
  match cut.hash with
  | none => .offBranch
  | some watermark =>
    if (view watermark).isNone then .unknownCutTarget
    else
      match walkBack view watermark (· = target) with
      | .stopped => .onBranch
      | .origin | .forgedLink => .offBranch
      | .missingLink => .incompleteCutAncestry

/-- Whether a cut names an entry of its chain. -/
inductive CutBinding where
  | ok | targetNotHeld | mismatch
  deriving DecidableEq

/-- A held watermark must be an entry of the chain it cuts, at its `seq`. -/
def validateCutTarget (cut : Cut) (expected : CutCoordinate) (view : HeaderView) : CutBinding :=
  match cut with
  | .empty => .ok
  | .at seq hash =>
    match view hash with
    | none => .targetNotHeld
    | some header =>
      if header.coordinate = expected ∧ header.seq = seq then .ok else .mismatch

/-- The join of two cuts, if there is one. -/
inductive JoinResult where
  | extended (cut : Cut)
  | incomparable
  | unknown
  deriving DecidableEq

/-- The higher of two cuts, if it descends from the lower one's watermark. -/
def joinAlong (lowerHash : EntryHash) (higher : Cut) (view : HeaderView) : JoinResult :=
  match ancestry lowerHash higher view with
  | .onBranch => .extended higher
  | .offBranch => .incomparable
  | .unknownCutTarget | .incompleteCutAncestry => .unknown

/-- The higher of two cuts, if the lower is behind it. -/
def joinCuts (a b : Cut) (view : HeaderView) : JoinResult :=
  match a, b with
  | .empty, other => .extended other
  | other, .empty => .extended other
  | .at seqA hashA, .at seqB hashB =>
    if seqA = seqB then
      if hashA = hashB then .extended a else .incomparable
    else if seqA < seqB then joinAlong hashA b view
    else joinAlong hashB a view

/-! ## 5. Registers -/

/-- A revocation register: of a device, or of one of its incarnations. -/
inductive RegisterKey where
  | device (account : AccountId) (log : Nat) (device : DeviceFingerprint)
  | ownerIncarnation (account : AccountId) (log : Nat) (device : DeviceFingerprint)
      (ownerId : OwnerId)
  deriving DecidableEq

namespace RegisterKey

/-- The entries the register speaks about. -/
def scopes (key : RegisterKey) (h : AccountEntryHeader) : Bool :=
  match key with
  | device account log dev =>
    h.accountId = account ∧ h.logId = log ∧ h.deviceFingerprint = dev
  | ownerIncarnation account log dev ownerId =>
    h.accountId = account ∧ h.logId = log ∧ h.deviceFingerprint = dev ∧ h.authorityRef = some ownerId

/-- The keys that scope an entry: its device's, and its cited incarnation's. -/
def scoping (h : AccountEntryHeader) : List RegisterKey :=
  device h.accountId h.logId h.deviceFingerprint ::
    h.authorityRef.toList.map (ownerIncarnation h.accountId h.logId h.deviceFingerprint)

end RegisterKey

/-- The revocation registers, by key. -/
abbrev Registers := RegisterKey → Option Cut

/-- Some register that scopes the entry holds a cut with `p`. -/
def Registers.anyScoped (registers : Registers) (h : AccountEntryHeader) (p : Cut → Bool) : Bool :=
  (RegisterKey.scoping h).any fun key => (registers key).any p

end RagRat.Account
