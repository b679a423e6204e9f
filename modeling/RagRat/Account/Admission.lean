/-
  File:      RagRat/Account/Admission.lean
  Subject:   ADMISSION of signed entries to the candidate table: what is stored, what the budgets are and
             what counts against them. The table only grows, so a budget that is full stays full.

  * `EntryContent` -- what an envelope says apart from its signature; `Codec` -- how bytes are read and
    verified;
  * `insertCandidate` -- an entry is stored once, below the ordinary ceiling or, if it revokes and its
    signer is under its share, below the raised one;
  * `candidateCapacityHeadroom`, `topUpReservations` -- what outstanding invites keep back.

  Account ids here are those of accounts without a control pin.
-/
import Mathlib.Algebra.BigOperators.Group.List.Basic
import RagRat.Account.Entry

namespace RagRat.Account

open Lib.Cbor (Bytes)

/-! ## 1. Entries as they are stored -/

/-- The log of annexes. -/
def annexLog : Nat := 3

/-- The entry type of an account's genesis. -/
def accountGenesisType : Nat := 0

/-- The entry type of an enrollment. -/
def deviceAddType : Nat := 1

/-- The entry type of a removal. -/
def deviceRemoveType : Nat := 2

/-- A tag of the annex log. -/
def viewManifestType : Nat := 1

/-- The tag an op has in its header. -/
def AccountOp.entryType : AccountOp → Nat
  | .accountGenesis .. => accountGenesisType
  | .deviceAdd .. => deviceAddType
  | .deviceRemove .. => deviceRemoveType
  | .ownerPromote .. => 3
  | .ownerDemote .. => 4
  | .cutExtend .. => 5
  | .streamOwn .. => 6
  | .streamGrant .. => 7
  | .streamRevoke .. => 8
  | .accountReRoot .. => 9

/-- What an envelope says apart from its signature. -/
structure EntryContent where
  entry : VerifiedAccountEntry
  entryType : Nat
  payload : Bytes
  /-- the view the payload names, read as a control op of version 2 -/
  preCutView : Option Bytes32
  /-- the ed25519 key in the payload of a `DeviceAdd` -/
  addedKey : Option Bytes
  /-- an op is read under the tag of the header -/
  typed : ∀ op, entry.decoded = .known op → entryType = op.entryType
  deriving DecidableEq

namespace EntryContent

section

variable (c : EntryContent)

def header : AccountEntryHeader := c.entry.header

def hash : EntryHash := c.entry.entryHash

def account : AccountId := c.header.accountId

def device : DeviceFingerprint := c.header.deviceFingerprint

end

/-- A plaintext op of a log at the version this binary folds. -/
def isCurrentPlaintext (log : Nat) (c : EntryContent) : Bool :=
  c.header.logId = log ∧ c.header.cryptoSuite = 0 ∧ c.header.opVersion = supportedOpVersion

section

variable (c : EntryContent)

/-- Plaintext of the control log, in the version this build reads. -/
def isCurrentControlPlaintext : Bool := c.isCurrentPlaintext controlLog

/-- The same of the log of secrets. -/
def isCurrentSecretsPlaintext : Bool := c.isCurrentPlaintext secretsLog

/-- The same of the annex log. -/
def isCurrentAnnexPlaintext : Bool := c.isCurrentPlaintext annexLog

/-- By its log and type, an account's genesis. -/
def isGenesis : Bool :=
  c.header.logId = controlLog ∧ c.entryType = accountGenesisType

/-- By its log and type, an enrollment. -/
def isDeviceAdd : Bool :=
  c.header.logId = controlLog ∧ c.entryType = deviceAddType

/-- The manifest of a view, which only the annex log has. -/
def isViewManifest : Bool :=
  c.isCurrentAnnexPlaintext ∧ c.entryType = viewManifestType

/-- The view a cut under a pin names as its evidence. -/
def citedViewDigest : Option Bytes32 :=
  if c.header.logId ≠ controlLog ∨ c.header.cryptoSuite ≠ 0 ∨ c.header.opVersion ≠ controlVersion then
    none
  else c.preCutView

/-- A removal at either version; whether it is authorized is not asked here. -/
def isRemovalCut : Bool :=
  c.header.logId = controlLog ∧ c.header.cryptoSuite = 0 ∧
    (c.header.opVersion = supportedOpVersion ∨ c.header.opVersion = controlVersion) ∧
    c.entryType = deviceRemoveType

/-- What a signer's share counts: a removal or a manifest by its log and tag alone. -/
def isRevocationMaterial : Bool :=
  (c.header.logId = annexLog ∧ c.entryType = viewManifestType) ∨
    (c.header.logId = controlLog ∧ c.entryType = deviceRemoveType)

end

end EntryContent

/-- How envelopes of type `W` are read and verified. -/
structure Codec (W : Type) where
  /-- `decode_account_signed` -/
  decode : W → Except String EntryContent
  len : W → Nat
  signedHash : W → Bytes32
  /-- whether the signature is one of this key over the body -/
  verifies : Bytes → W → Bool
  /-- the fingerprint of a key, if it is a valid point -/
  fingerprint : Bytes → Option DeviceFingerprint
  sha256 : Bytes → Bytes32
  /-- why the payload of a current plaintext entry does not decode, by its log -/
  payloadError : EntryContent → Option String

/-- A row of the candidate table: what the entry says, and its signed bytes. -/
structure CandidateRow (W : Type) where
  content : EntryContent
  signedBytes : W
  deriving DecidableEq

namespace CandidateRow

variable {W : Type}

def hash (r : CandidateRow W) : EntryHash := r.content.hash

def account (r : CandidateRow W) : AccountId := r.content.account

def device (r : CandidateRow W) : DeviceFingerprint := r.content.device

end CandidateRow

/-! ## 2. Budgets -/

/-- The rows an account may have, revocations included. -/
def candidatesPerAccountMax : Nat := 4096

/-- The rows of all accounts. -/
def candidatesGlobalMax : Nat := 16384

/-- The signed bytes an account may hold. -/
def candidateBytesPerAccountMax : Nat := 16 * 1024 * 1024

/-- The signed bytes of all accounts. -/
def candidateBytesGlobalMax : Nat := 64 * 1024 * 1024

/-- The rows of an account that only revocations may fill. -/
def revocationFloorEntries : Nat := 64

/-- The bytes only revocations may fill. -/
def revocationFloorBytes : Nat := 1024 * 1024

/-- The share of the floor one fingerprint may hold. -/
def revocationSignerEntries : Nat := revocationFloorEntries / 4

/-- One signer's share of them. -/
def revocationSignerBytes : Nat := revocationFloorBytes / 4

/-- The ceiling for entries that revoke nothing. -/
def ordinaryCandidatesPerAccountMax : Nat := candidatesPerAccountMax - revocationFloorEntries

/-- The same in bytes. -/
def ordinaryCandidateBytesPerAccountMax : Nat := candidateBytesPerAccountMax - revocationFloorBytes

/-- Which budget is full. -/
inductive CapacityScope where
  | preVerifyAccount
  | preVerifyGlobal
  | candidateAccount
  | candidateGlobal
  | candidateAccountBytes
  | candidateGlobalBytes
  deriving DecidableEq

/-- The scopes of an account's own budget of candidates. -/
def CapacityScope.isPerAccount : CapacityScope → Bool
  | .candidateAccount | .candidateAccountBytes => true
  | _ => false

/-- What became of an insert. -/
inductive CandidateInsert where
  | inserted
  | alreadyPresent
  | atCapacity (scope : CapacityScope)
  deriving DecidableEq

/-- What an outstanding invite keeps back for its redemption. -/
structure Reservation where
  id : Bytes32
  account : AccountId
  entries : ℤ
  bytes : ℤ
  targets : ℤ
  expiresAtMs : ℤ
  deriving DecidableEq

/-- The tables of a node that admission reads and writes. -/
structure CandidateStore (W : Type) where
  candidates : List (CandidateRow W) := []
  reservations : List Reservation := []

/-- Entries and bytes that count against a budget. -/
structure Usage where
  entries : ℤ
  bytes : ℤ
  deriving DecidableEq

section Admission

variable {W : Type}

namespace CandidateStore

/-- The rows of an account, or all. -/
def rowsIn (st : CandidateStore W) (scope : Option AccountId) : List (CandidateRow W) :=
  st.candidates.filter fun r => scope.all (· = r.account)

/-- The reservations of an account, or all, that have not lapsed. -/
def outstanding (st : CandidateStore W) (scope : Option AccountId) (wallMs : ℤ) : List Reservation :=
  st.reservations.filter fun r => scope.all (· = r.account) ∧ wallMs < r.expiresAtMs

/-- What is stored and what is reserved, of an account or of the whole store. -/
def charged (codec : Codec W) (st : CandidateStore W) (scope : Option AccountId) (wallMs : ℤ) : Usage where
  entries := (st.rowsIn scope).length + ((st.outstanding scope wallMs).map (·.entries)).sum
  bytes := ((st.rowsIn scope).map fun r => (codec.len r.signedBytes : ℤ)).sum +
    ((st.outstanding scope wallMs).map (·.bytes)).sum

/-- The table has an entry of the hash. -/
def holds (st : CandidateStore W) (h : EntryHash) : Bool := st.candidates.any fun r => r.hash = h

/-- The removals and manifests one fingerprint has stored on the account. -/
def revocationMaterial (st : CandidateStore W) (account : AccountId) (device : DeviceFingerprint) :
    List (CandidateRow W) :=
  st.candidates.filter fun r =>
    r.account = account ∧ r.device = device ∧ r.content.isRevocationMaterial

end CandidateStore

section

variable (codec : Codec W) (st : CandidateStore W)

/-- The row still fits its signer's share of the floor. -/
def signerIsUnderItsRevocationShare (row : CandidateRow W) :
    Bool :=
  let held := st.revocationMaterial row.account row.device
  held.length < revocationSignerEntries ∧
    (held.map fun r => codec.len r.signedBytes).sum + codec.len row.signedBytes ≤ revocationSignerBytes

/-- A stored cut of the account names this payload as its evidence. -/
def aStoredCutCites (account : AccountId) (payload : Bytes) :
    Bool :=
  st.candidates.any fun r =>
    r.account = account ∧ r.content.citedViewDigest = some (codec.sha256 payload)

/-- The entry may use the raised ceiling. -/
def isRevocation (row : CandidateRow W) : Bool :=
  (row.content.isRemovalCut ||
      row.content.isViewManifest && aStoredCutCites codec st row.account row.content.payload) &&
    signerIsUnderItsRevocationShare codec st row

end

/-- The ceilings of an account: the whole budget for revocation, what is above the floor otherwise. -/
def accountCaps (revocation : Bool) : Usage :=
  if revocation then ⟨candidatesPerAccountMax, candidateBytesPerAccountMax⟩
  else ⟨ordinaryCandidatesPerAccountMax, ordinaryCandidateBytesPerAccountMax⟩

/-- **An entry is admitted** if it is new and every budget has room for it. -/
def insertCandidate (codec : Codec W) (wallMs : ℤ) (st : CandidateStore W) (row : CandidateRow W) :
    CandidateInsert × CandidateStore W :=
  if st.holds row.hash then (.alreadyPresent, st)
  else
    let caps := accountCaps (isRevocation codec st row)
    let own := st.charged codec (some row.account) wallMs
    let all := st.charged codec none wallMs
    if caps.entries ≤ own.entries then (.atCapacity .candidateAccount, st)
    else if caps.bytes < own.bytes + codec.len row.signedBytes then
      (.atCapacity .candidateAccountBytes, st)
    else if candidatesGlobalMax ≤ all.entries then (.atCapacity .candidateGlobal, st)
    else if candidateBytesGlobalMax < all.bytes + codec.len row.signedBytes then
      (.atCapacity .candidateGlobalBytes, st)
    else (.inserted, { st with candidates := st.candidates ++ [row] })

/-! ## 3. Headroom and reservations -/

/-- What is left of the four budgets; negative where reservations exceed it. -/
structure CandidateCapacityHeadroom where
  accountEntriesRemaining : ℤ
  accountBytesRemaining : ℤ
  globalEntriesRemaining : ℤ
  globalBytesRemaining : ℤ
  deriving DecidableEq

/-- What is left below the ordinary ceilings. -/
def candidateCapacityHeadroom (codec : Codec W) (wallMs : ℤ) (st : CandidateStore W)
    (account : AccountId) : CandidateCapacityHeadroom where
  accountEntriesRemaining :=
    ordinaryCandidatesPerAccountMax - (st.charged codec (some account) wallMs).entries
  accountBytesRemaining :=
    ordinaryCandidateBytesPerAccountMax - (st.charged codec (some account) wallMs).bytes
  globalEntriesRemaining := candidatesGlobalMax - (st.charged codec none wallMs).entries
  globalBytesRemaining := candidateBytesGlobalMax - (st.charged codec none wallMs).bytes

/-- Every budget has room for this many entries and bytes. -/
def CandidateCapacityHeadroom.fits (h : CandidateCapacityHeadroom) (entries bytes : ℤ) : Bool :=
  entries ≤ h.accountEntriesRemaining ∧ entries ≤ h.globalEntriesRemaining ∧
    bytes ≤ h.accountBytesRemaining ∧ bytes ≤ h.globalBytesRemaining

/-- The reservation for this many key targets. -/
def Reservation.retarget (targets wrapBytes : ℤ) (r : Reservation) : Reservation :=
  { r with
    entries := r.entries + (targets - r.targets)
    bytes := r.bytes + (targets - r.targets) * wrapBytes
    targets := targets }

/-- Reservations follow the account's key targets; growth that does not fit fails the fold. -/
def topUpReservations (codec : Codec W) (wrapBytes : ℤ) (wallMs : ℤ) (account : AccountId) (targets : ℤ)
    (st : CandidateStore W) : Option (CandidateStore W) :=
  let outstanding := st.outstanding (some account) wallMs
  if outstanding.isEmpty then some st
  else
    let st' := { st with
      reservations := st.reservations.map fun r =>
        if r.account = account ∧ wallMs < r.expiresAtMs then r.retarget targets wrapBytes else r }
    if outstanding.any (·.targets < targets) ∧
        !(candidateCapacityHeadroom codec wallMs st' account).fits 0 0 then none
    else some st'

end Admission

end RagRat.Account
