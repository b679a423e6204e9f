/-
  File:      RagRat/EntrySync/Session.lean
  Subject:   THE ENTRY SESSION of the account and content lanes: the capabilities two peers leave the
             auth phase with (`auth.rs`), the egress limiter (`endpoint/accept.rs`), and one side of
             `run_session_limited` (`session.rs`) as a machine of single reads and writes.

  * `runAuthPhase`, `GlobalEgressLimiter.allow` -- what each side may push, and at what budget;
  * `Action`, `Side.act` -- the sender and the receiver of one side, interleaved in any order, then the
    acknowledgement in role order; a read finds the frames the peer has written, in their order;
  * `System`, `Reachable` -- two sides over two in-order channels.

  A side may fail at any time for reasons of its own (`Action.fault`), and the other then finds its
  stream closed. Left out: the encoding of the frames, the bytes of the binding, and the clock. The
  balance of the token bucket, an `f64` in the source, is a rational here.
-/
import Mathlib.Algebra.Order.Ring.Rat
import Mathlib.Logic.Function.Basic
import RagRat.Common

namespace RagRat.EntrySync

open Lib.Cbor (Bytes)

/-! ## 1. The auth phase -/

/-- The two sides. -/
inductive AuthRole where
  | dialer
  | acceptor
  deriving DecidableEq

/-- The other side. -/
def AuthRole.other : AuthRole → AuthRole
  | .dialer => .acceptor
  | .acceptor => .dialer

/-- Whom a side lets in. -/
inductive AuthPolicy where
  | «open»
  | closed
  | publicRead
  deriving DecidableEq

/-- What a peer may do. -/
inductive PeerCapability where
  | readOnly
  | readWrite
  deriving DecidableEq

/-- It may write. -/
def PeerCapability.canPush : PeerCapability → Bool
  | .readWrite => true
  | .readOnly => false

/-- What both grant. -/
def PeerCapability.restrictedBy : PeerCapability → PeerCapability → PeerCapability
  | .readWrite, .readWrite => .readWrite
  | _, _ => .readOnly

/-- The local store's verdict on a peer's binding. -/
inductive PeerAuthorization where
  | granted (capability : PeerCapability)
  | rejected
  | unavailable
  deriving DecidableEq

/-- How a peer was let in. -/
inductive PeerAdmission where
  | verified
  | fallback
  deriving DecidableEq

/-- The one error the handshake tells. -/
inductive AuthError where
  | unauthorized
  deriving DecidableEq

/-- What the two sides may push. -/
structure SessionCapabilities where
  /-- what this side may push: its own authority, as far as the peer grants it -/
  «local» : PeerCapability
  /-- what this side lets the peer push -/
  peer : PeerCapability
  deriving DecidableEq

/-- What one side brings: the account, its policy, its own capability, and its verdict on the peer.
    -/
structure AuthSide where
  accountId : Bytes32
  policy : AuthPolicy
  localAuth : Option PeerCapability
  authorize : Option PeerAuthorization

/-- A side's verdict on its peer, under its policy. -/
def authorizeBinding (side : AuthSide) (role : AuthRole) :
    Except AuthError (PeerCapability × PeerAdmission) :=
  match side.policy with
  | .open | .publicRead =>
    match side.authorize with
    | some (.granted capability) => .ok (capability, .verified)
    | some .unavailable =>
      if role = .dialer then .ok (.readWrite, .fallback) else .ok (.readOnly, .fallback)
    | some .rejected | none => .ok (.readOnly, .fallback)
  | .closed =>
    match side.authorize with
    | some (.granted capability) => .ok (capability, .verified)
    | _ => .error .unauthorized

/-- The handshake: the dialer presents, the acceptor checks and presents, the dialer checks, and
    each tells what it grants. -/
def runAuthPhase (dialer acceptor : AuthSide) :
    Except AuthError (AuthRole → SessionCapabilities) := do
  let dialerLocal ← dialer.localAuth.elim (.error .unauthorized) .ok
  if dialer.accountId ≠ acceptor.accountId then throw .unauthorized
  let (acceptorGrant, _) ← authorizeBinding acceptor .acceptor
  let acceptorLocal ← acceptor.localAuth.elim (.error .unauthorized) .ok
  let (dialerGrant, _) ← authorizeBinding dialer .dialer
  pure fun
    | .dialer => ⟨dialerLocal.restrictedBy acceptorGrant, dialerGrant⟩
    | .acceptor => ⟨acceptorLocal.restrictedBy dialerGrant, acceptorGrant⟩

/-! ## 2. The egress limiter -/

/-- A bucket of byte tokens. -/
structure TokenBucket where
  tokens : ℚ
  burst : ℚ
  refillPerSec : ℚ
  lastMs : Option ℤ
  deriving DecidableEq

/-- A full bucket. -/
def TokenBucket.full (burst refillPerSec : ℚ) : TokenBucket := ⟨burst, burst, refillPerSec, none⟩

/-- Credit the time since the last call, up to the burst. -/
def TokenBucket.refill (b : TokenBucket) (nowMs : ℤ) : TokenBucket :=
  match b.lastMs with
  | none => { b with lastMs := some nowMs }
  | some last =>
    let elapsedSecs : ℚ := (max (nowMs - last) 0 : ℤ) / 1000
    { b with
      tokens := min (b.tokens + elapsedSecs * b.refillPerSec) b.burst
      lastMs := some nowMs }

/-- The balance after a send; it may go below zero. -/
def TokenBucket.spend (b : TokenBucket) (cost : ℚ) : TokenBucket := { b with tokens := b.tokens - cost }

/-- The limiter all sessions of a node share. -/
abbrev GlobalEgressLimiter := TokenBucket

/-- Its refill. -/
def egressRefillBytesPerSec : ℚ := 16 * 1024 * 1024

/-- Its burst. -/
def egressBurstBytes : ℚ := 64 * 1024 * 1024

/-- As a node starts it. -/
def GlobalEgressLimiter.new : GlobalEgressLimiter := .full egressBurstBytes egressRefillBytesPerSec

/-- Any credit at all permits the entry, whose cost may leave the balance negative. -/
def GlobalEgressLimiter.allow (limiter : GlobalEgressLimiter) (bytes : Nat) (nowMs : ℤ) :
    Bool × GlobalEgressLimiter :=
  let refilled := TokenBucket.refill limiter nowMs
  if 0 < refilled.tokens then (true, refilled.spend bytes) else (false, refilled)

/-- How many entries the limiter permits, one after the other, at one time. -/
def GlobalEgressLimiter.kept (limiter : GlobalEgressLimiter) (nowMs : ℤ) : List Bytes → Nat
  | [] => 0
  | entry :: later =>
    match limiter.allow entry.length nowMs with
    | (true, spent) => GlobalEgressLimiter.kept spent nowMs later + 1
    | (false, _) => 0

/-! ## 3. Frames and pages -/

/-- What goes over the wire. -/
inductive Frame where
  | hello (accountId : Bytes32) (holds : List Bytes32)
  | entries (entries : List Bytes) (more : Bool)
  | done
  | ack
  | auth
  | authGrant (canPush : Bool)
  deriving DecidableEq

/-- The hashes a hello advertises. -/
def maxHelloHashes : Nat := 65536

/-- The entries of a page. -/
def maxEntriesPerPage : Nat := 256

/-- The bytes of a page. -/
def maxEntriesPageBytes : Nat := 16 * 1024 * 1024

/-- The first hashes, as many as fit. -/
def boundedInventory (hashes : List Bytes32) : List Bytes32 := hashes.take maxHelloHashes

/-- How many of the entries fit into the bytes of a page. -/
def fitting (bytes : Nat) : List Bytes → Nat
  | [] => 0
  | entry :: later =>
    if bytes + entry.length ≤ maxEntriesPageBytes then fitting (bytes + entry.length) later + 1 else 0

/-- The length of the next page: at least one entry. -/
def pageLength (rest : List Bytes) : Nat := max (fitting 0 (rest.take maxEntriesPerPage)) 1

/-- The next page, and whether more follow it. -/
def nextPage (rest : List Bytes) : Frame :=
  .entries (rest.take (pageLength rest)) (!(rest.drop (pageLength rest)).isEmpty)

/-! ## 4. One side -/

/-- What a side starts a session with. -/
structure Config where
  role : AuthRole
  accountId : Bytes32
  capabilities : SessionCapabilities
  /-- the entries held when the session starts, by the hash of their envelope -/
  snapshot : List (Bytes32 × Bytes)
  /-- the egress limiter, if the side is metered, and the time it is read at -/
  egress : Option (GlobalEgressLimiter × ℤ)
  entriesPerSession : Nat

/-- What a side advertises. -/
def Config.inventory (cfg : Config) : List Bytes32 := boundedInventory (cfg.snapshot.map (·.1))

/-- What the peer did not advertise, if this side may push. -/
def Config.offered (cfg : Config) (peerHave : List Bytes32) : List Bytes :=
  if cfg.capabilities.local.canPush then
    (cfg.snapshot.filter fun e => e.1 ∉ peerHave).map (·.2)
  else []

/-- What is sent: as much of it as the limiter affords. -/
def Config.toSend (cfg : Config) (peerHave : List Bytes32) : List Bytes :=
  match cfg.egress with
  | none => cfg.offered peerHave
  | some (limiter, nowMs) =>
    (cfg.offered peerHave).take (limiter.kept nowMs (cfg.offered peerHave))

/-- Why a side failed. -/
inductive SessionError where
  | codec
  | protocol (why : String)
  | timeout
  | unauthorizedPush
  | store
  deriving DecidableEq

/-- What a side reports. -/
structure SessionReport where
  entriesSent : Nat
  entriesReceived : Nat
  entriesNewlyStored : Nat
  peerCapability : PeerCapability
  deriving DecidableEq

/-- What the store says of an entry. -/
inductive Ingested where
  | stored
  | noChange
  deriving DecidableEq

/-- Where the sender is. -/
inductive SenderState where
  | hello
  /-- the hello is written; the receiver has to hand over the peer's inventory -/
  | awaiting
  | streaming (total : Nat) (rest : List Bytes)
  | finished (total : Nat)
  deriving DecidableEq

/-- Where the receiver is. -/
inductive ReceiverState where
  | hello
  | pages (received newlyStored : Nat) (sawPage sawFinal : Bool)
  | finished (received newlyStored : Nat)
  deriving DecidableEq

/-- A step of the acknowledgement. -/
inductive AckStep where
  | send
  | read
  deriving DecidableEq

/-- The dialer acknowledges first; the acceptor reads that before it replies. -/
def AuthRole.acknowledgeInOrder : AuthRole → List AckStep
  | .dialer => [.send, .read]
  | .acceptor => [.read, .send]

/-- Where a side stands, over a store of type `S`. -/
structure Side (S : Type) where
  store : S
  sender : SenderState
  /-- the peer's inventory, from the receiver to the sender -/
  peerHave : Option (List Bytes32)
  receiver : ReceiverState
  /-- what is left of the acknowledgement -/
  acks : List AckStep
  /-- the frames written so far -/
  out : List Frame
  /-- how many of the peer's frames were read -/
  taken : Nat
  /-- the entries handed to the store, in order -/
  ingested : List Bytes
  result : Option (Except SessionError SessionReport)

/-- A side before its first step. -/
def Side.start {S : Type} (cfg : Config) (store : S) : Side S :=
  ⟨store, .hello, none, .hello, cfg.role.acknowledgeInOrder, [], 0, [], none⟩

/-- The side writes no more: it returned, or has acknowledged. -/
def Side.closed {S : Type} (s : Side S) : Bool := s.result.isSome || !(s.acks.contains .send)

section Machine

variable {S : Type}

/-- A side's store: how it takes an entry off the wire, unless it fails. -/
abbrev IngestInto (S : Type) := S → Bytes → Option (Ingested × S)

/-- The entries of a page, one by one; what was taken before an error stays. -/
def receiveEntries (cfg : Config) (ingest : IngestInto S) :
    List Bytes → Nat → Nat → Side S → Side S × Except SessionError (Nat × Nat)
  | [], received, newlyStored, s => (s, .ok (received, newlyStored))
  | bytes :: later, received, newlyStored, s =>
    if cfg.entriesPerSession < received + 1 then
      (s, .error (.protocol s!"peer streamed more than {cfg.entriesPerSession} entries"))
    else
      match ingest s.store bytes with
      | none => (s, .error .store)
      | some (outcome, store) =>
        receiveEntries cfg ingest later (received + 1)
          (newlyStored + if outcome = .stored then 1 else 0)
          { s with store := store, ingested := s.ingested ++ [bytes] }

/-- The receiver takes a frame: the side afterwards, and the error it fails with. -/
def receive (cfg : Config) (ingest : IngestInto S) (frame : Frame) (s : Side S) :
    Side S × Option SessionError :=
  match s.receiver with
  | .hello =>
    match frame with
    | .hello account holds =>
      if account ≠ cfg.accountId then
        (s, some (.protocol "peer hello names a different account than this session"))
      else ({ s with peerHave := some holds, receiver := .pages 0 0 false false }, none)
    | _ => (s, some (.protocol "peer did not open with a hello"))
  | .pages received newlyStored sawPage sawFinal =>
    match frame with
    | .entries entries more =>
      if cfg.capabilities.peer.canPush = false then (s, some .unauthorizedPush)
      else if sawFinal then (s, some (.protocol "peer sent an Entries page after the final page"))
      else if entries.isEmpty then (s, some (.protocol "peer sent an empty Entries page"))
      else
        match receiveEntries cfg ingest entries received newlyStored s with
        | (s, .error why) => (s, some why)
        | (s, .ok (received, newlyStored)) =>
          ({ s with receiver := .pages received newlyStored true (!more) }, none)
    | .done =>
      if sawPage && !sawFinal then
        (s, some (.protocol "peer sent Done after declaring more pages would follow"))
      else ({ s with receiver := .finished received newlyStored }, none)
    | .ack => (s, some (.protocol "peer acknowledged before sending Done"))
    | .hello _ _ => (s, some (.protocol "a second hello mid-session"))
    | .auth => (s, some (.protocol "an auth frame mid-session"))
    | .authGrant _ => (s, some (.protocol "an auth grant mid-session"))
  -- the receiver reads no more
  | .finished _ _ => (s, none)

/-- What a side can do next. -/
inductive Action where
  | writeHello
  | takeInventory
  | writePage
  | writeDone
  | read
  | sendAck
  | readAck
  | finish
  | fault (why : SessionError)
  deriving DecidableEq

/-- A failure of the side's own: its clock, its transport, its store. -/
def SessionError.isFault : SessionError → Bool
  | .codec | .timeout | .store => true
  | .protocol _ | .unauthorizedPush => false

/-- A side that has failed. -/
def Side.fail (s : Side S) (why : SessionError) : Side S := { s with result := some (.error why) }

/-- Read the next frame of the peer, if there is one or its stream is closed. -/
def Side.readNext (inbox : List Frame) (closed : Bool) (s : Side S)
    (take : Frame → Side S × Option SessionError) : Option (Side S) :=
  match inbox[s.taken]? with
  | some frame =>
    match take frame with
    | (s', none) => some { s' with taken := s.taken + 1 }
    | (s', some why) => some (s'.fail why)
  | none =>
    if closed then
      some (s.fail
        (.protocol "peer closed the stream before session completion — transfer truncated"))
    else none

/-- Both halves of the side have joined. -/
def Side.joined (s : Side S) : Bool :=
  match s.sender, s.receiver with
  | .finished _, .finished _ _ => true
  | _, _ => false

/-- **One action of a side** that has not returned, if it is what the side does next. -/
def Side.act (cfg : Config) (ingest : IngestInto S) (inbox : List Frame) (closed : Bool)
    (s : Side S) (a : Action) : Option (Side S) :=
  if s.result.isSome then none
  else
    match a with
    | .writeHello =>
      match s.sender with
      | .hello => some { s with
          sender := .awaiting
          out := s.out ++ [.hello cfg.accountId cfg.inventory] }
      | _ => none
    | .takeInventory =>
      match s.sender, s.peerHave with
      | .awaiting, some holds =>
        some { s with sender := .streaming (cfg.toSend holds).length (cfg.toSend holds) }
      | _, _ => none
    | .writePage =>
      match s.sender with
      | .streaming total rest =>
        if rest.isEmpty then none
        else some { s with
          sender := .streaming total (rest.drop (pageLength rest))
          out := s.out ++ [nextPage rest] }
      | _ => none
    | .writeDone =>
      match s.sender with
      | .streaming total rest =>
        if rest.isEmpty then some { s with sender := .finished total, out := s.out ++ [.done] }
        else none
      | _ => none
    | .read =>
      match s.receiver with
      | .finished _ _ => none
      | _ => s.readNext inbox closed fun frame => receive cfg ingest frame s
    | .sendAck =>
      match s.acks with
      | .send :: rest => if s.joined then some { s with acks := rest, out := s.out ++ [.ack] } else none
      | _ => none
    | .readAck =>
      match s.acks with
      | .read :: rest =>
        if s.joined then
          s.readNext inbox closed fun frame =>
            if frame = .ack then ({ s with acks := rest }, none)
            else (s, some (.protocol
              "peer sent another data-phase frame instead of the completion acknowledgement"))
        else none
      | _ => none
    | .finish =>
      match s.acks, s.sender, s.receiver with
      | [], .finished total, .finished received newlyStored =>
        some { s with result := some (.ok ⟨total, received, newlyStored, cfg.capabilities.peer⟩) }
      | _, _, _ => none
    | .fault why => if why.isFault then some (s.fail why) else none

/-! ## 5. Two sides -/

/-- The two sides of a session. -/
abbrev System (S : Type) := AuthRole → Side S

/-- Both sides before the first step. -/
def System.start (cfg : AuthRole → Config) (stores : AuthRole → S) : System S :=
  fun me => .start (cfg me) (stores me)

/-- One side acts. -/
def System.step (cfg : AuthRole → Config) (ingest : IngestInto S) (s : System S)
    (me : AuthRole) (a : Action) : Option (System S) :=
  ((s me).act (cfg me) ingest (s me.other).out (s me.other).closed a).map (Function.update s me)

/-- The states of a session, over every interleaving of the two sides. -/
inductive Reachable (cfg : AuthRole → Config) (ingest : IngestInto S) (stores : AuthRole → S) :
    System S → Prop where
  | start : Reachable cfg ingest stores (.start cfg stores)
  | step {s s' : System S} (h : Reachable cfg ingest stores s) (me : AuthRole) (a : Action)
      (hs : s.step cfg ingest me a = some s') : Reachable cfg ingest stores s'

end Machine

end RagRat.EntrySync
