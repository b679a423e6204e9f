/-
  File:      RagRat/Account/Ingest.lean
  Subject:   INGEST of a signed account entry: its signer's key is looked up among the stored entries that
             certify keys; an entry whose signer is not known yet is parked; a stored genesis or
             `DeviceAdd` lets parked entries in, and what is accepted is derived again.

  * `certifies` -- the key an entry vouches for; `storedDevicePubkeys` -- all that the table vouches for;
  * `insertPreVerify`, `promotePreVerify` -- the queue of entries that wait for their signer;
  * `accountIngest` -- one delivery; `deliverAll` -- many, from an empty store.

  The log of secrets is folded by a function of its rows and of the account's authority (`Node.secrets`);
  content that waits for the account is not modelled.
-/
import RagRat.Account.Admission
import RagRat.Account.Projection

namespace RagRat.Account

open Lib.Loop
open Lib.Cbor (Bytes)

/-! ## 1. A node's tables -/

/-- An entry that waits for its signer. -/
structure ParkedRow (W : Type) where
  signedHash : Bytes32
  entryHash : EntryHash
  account : AccountId
  fingerprint : DeviceFingerprint
  rawBytes : W
  receivedAtMs : ℤ
  deriving DecidableEq

/-- How an entry stands after a fold. -/
inductive EntryStatus where
  | accepted
  | forked
  | decided (outcome : Outcome)
  | retainedUnfolded
  /-- a verdict of the secrets log's fold -/
  | secrets (accepted : Bool) (verdict : String)
  deriving DecidableEq

/-- The tables a fold rewrites. -/
structure AccountTables where
  projection : AccountProjection
  status : EntryHash → Option EntryStatus

/-- What a node stores of the accounts. -/
structure AccountStore (W : Type) extends CandidateStore W where
  parked : List (ParkedRow W) := []
  /-- what the last fold of an account wrote -/
  tables : AccountId → Option AccountTables := fun _ => none

/-- What a node reads envelopes and folds with. -/
structure Node (W : Type) where
  codec : Codec W
  /-- the verdicts of the secrets log's fold, from its rows by hash and the account's authority -/
  secrets : List EntryContent → AccountAuthHistory → EntryHash → Option (Bool × String)
  /-- the live stream keys a joiner has to be sent, over the tables of the account -/
  keyTargets : AccountStore W → AccountId → ℤ
  /-- the size of a wrap for one recipient -/
  wrapBytes : ℤ

/-- What a delivery comes to. -/
inductive IngestOutcome where
  | rejected (why : String)
  | preVerify
  | preVerifyWithEviction (scopes : List CapacityScope)
  | capacityReached (scope : CapacityScope)
  | ingested (status : Option EntryStatus) (scope : Option CapacityScope) (dropped : List EntryHash)

section Ingest

variable {W : Type}

/-! ## 2. Keys -/

/-- Later insertions stand in front. -/
abbrev Pubkeys := List (DeviceFingerprint × Bytes)

/-- The key an entry vouches for: a genesis for its founder's, a `DeviceAdd` for the added device's. -/
def certifies (codec : Codec W) (c : EntryContent) : Option (DeviceFingerprint × Bytes) :=
  if c.isCurrentControlPlaintext then
    match c.entry.decoded with
    | .known (.accountGenesis key) =>
      if codec.fingerprint key = some c.device then some (c.device, key) else none
    | .known (.deviceAdd device _) => c.addedKey.map (device, ·)
    | _ => none
  else none

/-- With the key the entry vouches for. -/
def addSelfPubkey (codec : Codec W) (pubkeys : Pubkeys) (c : EntryContent) : Pubkeys :=
  match certifies codec c with
  | some entry => entry :: pubkeys
  | none => pubkeys

/-- The keys an account's stored entries vouch for. -/
def storedDevicePubkeys (codec : Codec W) (st : CandidateStore W) (account : AccountId) : Pubkeys :=
  ((st.rowsIn (some account)).filter fun r => r.content.isGenesis || r.content.isDeviceAdd).foldl
    (fun pubkeys r => addSelfPubkey codec pubkeys r.content) []

/-- The entry may let parked ones in. -/
def introducesDevice (c : EntryContent) : Bool := c.isGenesis || c.isDeviceAdd

/-! ## 3. Checks -/

/-- A genesis names the account its payload hashes to, and its own signer. -/
def validateGenesisBinding (codec : Codec W) (c : EntryContent) : Except String Unit :=
  if !c.isCurrentControlPlaintext || !c.isGenesis then .ok ()
  else if c.entry.payloadAccountId ≠ c.account then
    .error "genesis payload does not hash to its account_id"
  else
    match c.entry.decoded with
    | .known (.accountGenesis key) =>
      if codec.fingerprint key = some c.device then .ok ()
      else .error "genesis founder key does not match signer fingerprint"
    | _ => .error "genesis founder key does not match signer fingerprint"

/-- A snapshot under any suite but plaintext. -/
def isSealedSnapshot (c : EntryContent) : Bool :=
  c.header.logId = annexLog ∧ c.entryType = 0 ∧ c.header.cryptoSuite ≠ 0

/-- What is asked of header and payload before anything is stored. -/
def validateStorableHeaderPayload (codec : Codec W) (c : EntryContent) : Except String Unit := do
  if 2 ^ 63 ≤ c.header.seq then throw "account seq exceeds SQLite INTEGER range"
  let decodes (what : String) : Except String Unit :=
    match codec.payloadError c with
    | some why => throw (what ++ " payload decode failed: " ++ why)
    | none => pure ()
  if c.isCurrentControlPlaintext then
    decodes "op"
    validateGenesisBinding codec c
  else if c.isCurrentSecretsPlaintext then decodes "secrets op"
  else if isSealedSnapshot c then
    throw "snapshot manifests must be plaintext-signed (crypto_suite 0)"
  else if c.isCurrentAnnexPlaintext then decodes "annex op"

/-- The signature is the resolved key's, and the key is the header's device. -/
def authenticateEntry (codec : Codec W) (signedBytes : W) (key : Bytes) :
    Except String EntryContent :=
  match codec.fingerprint key with
  | none => .error "resolved device key is not a valid point"
  | some fingerprint => do
    let c ← codec.decode signedBytes
    if !codec.verifies key signedBytes then throw "ed25519 signature verification failed"
    if fingerprint ≠ c.device then throw "device fingerprint does not match the verifying key"
    validateGenesisBinding codec c
    pure c

/-! ## 4. The queue before verification -/

/-- The parked entries of an account. -/
def preVerifyPerAccountMax : Nat := 64

/-- The parked entries of all. -/
def preVerifyGlobalMax : Nat := 256

section

variable (rows : List (ParkedRow W))

/-- The rows in the order they are dropped. -/
def byAge : List (ParkedRow W) :=
  rows.insertionSort fun a b =>
    a.receivedAtMs < b.receivedAtMs ∨ a.receivedAtMs = b.receivedAtMs ∧ a.signedHash ≤ b.signedHash

/-- The oldest rows over the limit, of an account or of all. -/
def overLimit (scope : Option AccountId) (limit : Nat) :
    List Bytes32 :=
  let inScope := rows.filter fun r => scope.all (· = r.account)
  ((byAge inScope).take (inScope.length - limit)).map (·.signedHash)

/-- Without these envelopes. -/
def dropParked (hashes : List Bytes32) : List (ParkedRow W) :=
  rows.filter (·.signedHash ∉ hashes)

end

/-- What became of a parked entry. -/
inductive PreVerifyInsert where
  | parked (evicted : List CapacityScope)
  | atCapacity (scope : CapacityScope)

/-- A row is parked once; both budgets are then kept by dropping the oldest. -/
def insertPreVerify (parked : List (ParkedRow W)) (row : ParkedRow W) :
    PreVerifyInsert × List (ParkedRow W) :=
  if parked.any (·.signedHash = row.signedHash) then (.parked [], parked)
  else
    let inserted := parked ++ [row]
    let overAccount := overLimit inserted (some row.account) preVerifyPerAccountMax
    let kept := dropParked inserted overAccount
    if row.signedHash ∈ overAccount then (.atCapacity .preVerifyAccount, kept)
    else
      let overGlobal := overLimit kept none preVerifyGlobalMax
      let left := dropParked kept overGlobal
      if row.signedHash ∈ overGlobal then (.atCapacity .preVerifyGlobal, left)
      else
        (.parked ((if overAccount.isEmpty then [] else [.preVerifyAccount]) ++
          if overGlobal.isEmpty then [] else [.preVerifyGlobal]), left)

/-- Where a round over the queue stands. -/
structure Promoting (W : Type) where
  store : AccountStore W
  pubkeys : Pubkeys
  scope : Option CapacityScope
  dropped : List EntryHash
  promotedAny : Bool

/-- One parked row: still unresolved, refused, at capacity, or a candidate now. -/
def promoteRow (codec : Codec W) (wallMs : ℤ) (s : Promoting W) (row : ParkedRow W) : Promoting W :=
  match s.pubkeys.lookup row.fingerprint with
  | none => s
  | some key =>
    let left := { s with store := { s.store with parked := dropParked s.store.parked [row.signedHash] } }
    let checked : Except String EntryContent := do
      let c ← authenticateEntry codec row.rawBytes key
      validateStorableHeaderPayload codec c
      pure c
    match checked with
    | .error _ => left
    | .ok c =>
      match insertCandidate codec wallMs s.store.toCandidateStore ⟨c, row.rawBytes⟩ with
      | (.atCapacity scope, _) =>
        { left with scope := left.scope.or (some scope), dropped := left.dropped ++ [c.hash] }
      | (_, candidates) =>
        { left with
          store := { left.store with toCandidateStore := candidates }
          pubkeys := addSelfPubkey codec s.pubkeys c
          promotedAny := true }

/-- The account's parked rows by their hash. -/
def pendingRows (st : AccountStore W) (account : AccountId) : List (ParkedRow W) :=
  (st.parked.filter (·.account = account)).insertionSort fun a b => a.signedHash ≤ b.signedHash

/-- A round; another follows if it let a row in. -/
def promoteRound (codec : Codec W) (wallMs : ℤ) (account : AccountId) (s : Promoting W) :
    Promoting W ⊕ Promoting W :=
  let s' := (pendingRows s.store account).foldl (promoteRow codec wallMs) { s with promotedAny := false }
  if s'.promotedAny then .inl s' else .inr s'

/-- Rounds until one lets no row in; `promote_isSome`. -/
def promotePreVerify (codec : Codec W) (wallMs : ℤ) (st : AccountStore W) (account : AccountId) :
    Promoting W :=
  let start : Promoting W :=
    ⟨st, storedDevicePubkeys codec st.toCandidateStore account, none, [], false⟩
  (loop (promoteRound codec wallMs account) (st.parked.length + 1) start).getD start

/-! ## 5. The fold of the tables -/

/-- The account's entries in the order they are loaded. -/
def loadCandidates (st : CandidateStore W) (account : AccountId) : List EntryContent :=
  ((st.rowsIn (some account)).map (·.content)).insertionSort fun a b => a.hash ≤ b.hash

/-- What the tables say of an entry. -/
def statusOf (node : Node W) (contents : List EntryContent) (projection : AccountProjection)
    (h : EntryHash) : Option EntryStatus :=
  if contents.any (·.hash = h) then
    match node.secrets (contents.filter (·.header.logId = secretsLog)) projection.history h with
    | some (accepted, verdict) => some (.secrets accepted verdict)
    | none =>
      some (if h ∈ projection.accepted then .accepted
        else if h ∈ projection.forked then .forked
        else ((projection.history.outcomes h).map .decided).getD .retainedUnfolded)
  else none

/-- The tables of an account, from what it has stored. -/
def foldTables (node : Node W) (st : CandidateStore W) (account : AccountId) : Option AccountTables :=
  let contents := loadCandidates st account
  (deriveAccountProjection node.codec.sha256 (contents.map (·.entry))).map fun projection =>
    ⟨projection, statusOf node contents projection⟩

/-- **The tables are derived again**, and reservations follow the key targets; if these do not fit,
    the whole transaction fails. -/
def foldAccountState (node : Node W) (wallMs : ℤ) (st : AccountStore W) (account : AccountId) :
    Except String (AccountStore W) :=
  let folded := { st with tables := Function.update st.tables account (foldTables node st.toCandidateStore account) }
  match topUpReservations node.codec node.wrapBytes wallMs account (node.keyTargets folded account)
      folded.toCandidateStore with
  | some candidates => .ok { folded with toCandidateStore := candidates }
  | none => .error ("the new mandatory enrollment key targets do not fit the candidate store " ++
      "alongside the outstanding invite reservations")

/-- The status of a stored entry. -/
def AccountStore.status (st : AccountStore W) (account : AccountId) (h : EntryHash) :
    Option EntryStatus :=
  (st.tables account).bind (·.status h)

/-! ## 6. One delivery -/

/-- The signer is resolved, or the entry is parked. -/
def resolveSigner (codec : Codec W) (st : AccountStore W) (signedBytes : W) (c : EntryContent) :
    Option (Except String EntryContent) :=
  ((addSelfPubkey codec (storedDevicePubkeys codec st.toCandidateStore c.account) c).lookup
    c.device).map (authenticateEntry codec signedBytes)

/-- An authenticated entry is stored, lets parked ones in, and the tables are derived again. -/
def storeVerified (node : Node W) (wallMs : ℤ) (st : AccountStore W) (signedBytes : W)
    (c : EntryContent) : Except String (IngestOutcome × AccountStore W) :=
  match insertCandidate node.codec wallMs st.toCandidateStore ⟨c, signedBytes⟩ with
  | (.atCapacity scope, _) => .ok (.capacityReached scope, st)
  | (insert, candidates) =>
    if insert = .alreadyPresent ∧ (st.status c.account c.hash).isSome then
      .ok (.ingested (st.status c.account c.hash) none [], st)
    else
      let stored := { st with toCandidateStore := candidates }
      let promoted :=
        if introducesDevice c then promotePreVerify node.codec wallMs stored c.account
        else ⟨stored, [], none, [], false⟩
      (foldAccountState node wallMs promoted.store c.account).map fun st' =>
        (.ingested (st'.status c.account c.hash) promoted.scope promoted.dropped, st')

/-- **One delivery**: a failed fold rolls it back. -/
def accountIngest (node : Node W) (wallMs nowMs : ℤ) (st : AccountStore W) [DecidableEq W]
    (signedBytes : W) : Except String (IngestOutcome × AccountStore W) :=
  match node.codec.decode signedBytes with
  | .error why => .ok (.rejected why, st)
  | .ok c =>
    match validateStorableHeaderPayload node.codec c with
    | .error why => .ok (.rejected why, st)
    | .ok () =>
      -- a byte for byte replay is answered from the tables
      if st.candidates.any (fun r => r.hash = c.hash ∧ r.signedBytes = signedBytes) ∧
          (st.status c.account c.hash).isSome then
        .ok (.ingested (st.status c.account c.hash) none [], st)
      else
        match resolveSigner node.codec st signedBytes c with
        | none =>
          match insertPreVerify st.parked
              ⟨node.codec.signedHash signedBytes, c.hash, c.account, c.device, signedBytes, nowMs⟩ with
          | (.parked [], parked) => .ok (.preVerify, { st with parked := parked })
          | (.parked evicted, parked) =>
            .ok (.preVerifyWithEviction evicted, { st with parked := parked })
          | (.atCapacity scope, parked) => .ok (.capacityReached scope, { st with parked := parked })
        | some (.error why) => .ok (.rejected why, st)
        | some (.ok verified) => storeVerified node wallMs st signedBytes verified

/-! ## 7. Deliveries one after the other -/

/-- An envelope with the clocks it is taken at. -/
structure Delivery (W : Type) where
  signedBytes : W
  wallMs : ℤ
  nowMs : ℤ

variable [DecidableEq W]

/-- The store after a delivery. -/
def deliver (node : Node W) (st : AccountStore W) (d : Delivery W) : AccountStore W :=
  match accountIngest node d.wallMs d.nowMs st d.signedBytes with
  | .ok (_, st') => st'
  | .error _ => st

/-- The store after some deliveries, from an empty one. -/
def deliverAll (node : Node W) (deliveries : List (Delivery W)) : AccountStore W :=
  deliveries.foldl (deliver node) {}

end Ingest

end RagRat.Account
