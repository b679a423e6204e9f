/-
  File:      RagRat/TableSync/Session.lean
  Subject:   ONE DIRECTION OF A TABLE SESSION: `send_direction` on one side against `receive_direction`
             on the other (`table_session.rs`), over the pages a store serves (`transport.rs`).

  * `acceptedChainPage`, `chainFrontier`, `acceptedChainEntries` -- what a store offers, asks for and
    serves of a chain;
  * `receiveFrame` -- the receiver, frame by frame, with every frame it refuses;
  * `sendDirection` -- the sender, which writes its frames to the receiver and reads the answers.

  The sender reads its own store only, so a direction is one run over the receiver's state. Left out:
  the manifests and acknowledgements around the two directions, the idle timeout, the size of the
  entries, and the checks of the account control that every store call repeats.
-/
import RagRat.Lib.Fallible
import RagRat.TableSync.Stream

namespace RagRat.TableSync

open Lib.Fallible

/-! ## 1. What a store offers and serves -/

/-- The tip of one device chain, as its sender offers it. -/
structure ChainHead where
  device : DeviceFingerprint
  lamport : Nat
  entryHash : EntryHash
  /-- the floor the sender compacted the chain below, or adopted -/
  floor : Option ChainCursor
  deriving DecidableEq

/-- The tip as a cursor. -/
def ChainHead.tip (c : ChainHead) : ChainCursor := ⟨c.lamport, c.entryHash⟩

/-- The head of an accepted entry's chain: what is promised of it, where a suffix is owed. -/
def chainHead (σ : StreamStore) (e : StoredEntry) : ChainHead :=
  let tip := match σ.obligation e.device with
    | some owed => owed.tip
    | none => e.cursor
  ⟨e.device, tip.lamport, tip.entryHash, σ.log.retainedFloors e.device⟩

/-- The heads of all chains, by device. -/
def chainHeads (σ : StreamStore) : List ChainHead :=
  ((σ.log.entries.filter fun e =>
      ¬ ∃ newer ∈ σ.log.entries, newer.device = e.device ∧ e.lamport < newer.lamport).insertionSort
    fun a b => a.device ≤ b.device).map (chainHead σ)

/-- The next heads after a device. -/
def acceptedChainPage (σ : StreamStore) (afterDevice : Option DeviceFingerprint) (limit : Nat) :
    List ChainHead :=
  ((chainHeads σ).filter fun c => afterDevice.all (· < c.device)).take limit

/-- How far a receiver is on one chain. -/
inductive FrontierState where
  | empty
  | accepted (c : ChainCursor)
  | restore (c : ChainCursor)
  deriving DecidableEq

/-- What a side says of a chain: its tail, its witness, or nothing. -/
def chainFrontier (σ : StreamStore) (device : DeviceFingerprint) : FrontierState :=
  match σ.log.chainTail device, σ.log.chainWitness device with
  | none, none => .empty
  | some tail, none => .accepted tail
  | none, some witness => .restore witness
  | some tail, some witness =>
    if tail.lamport < witness.lamport then .restore witness else .accepted tail

/-- Where the sender starts on a chain. -/
inductive ChainStart where
  | beginning
  | after (c : ChainCursor)
  | at (c : ChainCursor)
  deriving DecidableEq

/-- The cursor a start names. -/
def ChainStart.cursor? : ChainStart → Option ChainCursor
  | .beginning => none
  | .after c | .at c => some c

/-- A cursor the store cannot serve from, although it holds the chain. -/
inductive UnservableChainCursor where
  | notHeld
  | hashConflict (lamport : Nat)
  | noRestoreSuccessor
  deriving DecidableEq

/-- Why entries are not served. -/
inductive EntriesError where
  | unservable (why : UnservableChainCursor)
  | store (why : String)
  deriving DecidableEq

section

variable (log : ChainLog) (device : DeviceFingerprint)

/-- The accepted entries of the chain, by lamport. -/
def chainByLamport : List StoredEntry :=
  (log.entries.filter fun e => e.device = device).insertionSort fun a b => a.lamport ≤ b.lamport

/-- The cursor is of a stored entry; an error if another stands there. -/
def cursorMatches (cursor : ChainCursor) :
    Except EntriesError Bool :=
  match log.entries.find? fun e => e.device = device ∧ e.lamport = cursor.lamport with
  | none => .ok false
  | some stored =>
    if stored.entryHash = cursor.entryHash then .ok true
    else .error (.unservable (.hashConflict cursor.lamport))

/-- The lamport lies below everything held of the chain, whose lowest entry has a predecessor. -/
def belowRootlessHoldings (lamport : Nat) : Bool :=
  match (chainByLamport log device).head? with
  | some lowest => lowest.prevHash.isSome && lamport < lowest.lamport
  | none => false

/-- The entry after a witness. -/
def directSuccessorLamport (witness : ChainCursor) :
    Option Nat :=
  ((chainByLamport log device).find? fun e =>
    e.prevHash = some witness.entryHash ∧ witness.lamport < e.lamport).map (·.lamport)

end

/-- The part of a chain that is served: all of it, what lies above a lamport, or from one on. -/
inductive Window where
  | all
  | above (lamport : Nat)
  | upFrom (lamport : Nat)
  deriving DecidableEq

/-- The lamport lies in the window. -/
def Window.admits : Window → Nat → Bool
  | .all, _ => true
  | .above n, lamport => n < lamport
  | .upFrom n, lamport => n ≤ lamport

/-- What is served from a start. A cursor below a chain restored at its witness gets nothing for
    now. -/
def serveFrom (log : ChainLog) (device : DeviceFingerprint) :
    ChainStart → Except EntriesError (Option Window)
  | .beginning => .ok (some .all)
  | .after cursor =>
    match cursorMatches log device cursor with
    | .error why => .error why
    | .ok true => .ok (some (.above cursor.lamport))
    | .ok false =>
      if belowRootlessHoldings log device cursor.lamport then .ok none
      else .error (.unservable .notHeld)
  | .at cursor =>
    match cursorMatches log device cursor with
    | .error why => .error why
    | .ok true => .ok (some (.upFrom cursor.lamport))
    | .ok false =>
      match directSuccessorLamport log device cursor with
      | some successor => .ok (some (.upFrom successor))
      | none =>
        if belowRootlessHoldings log device cursor.lamport then .ok none
        else .error (.unservable .noRestoreSuccessor)

section

variable (σ : StreamStore) (device : DeviceFingerprint) (start : ChainStart)

/-- The peer is further through a suffix this store still owes: it gets nothing either. -/
def pastOwedSuffix :
    Except EntriesError Bool :=
  match start.cursor?, σ.obligation device, σ.log.chainTail device with
  | some cursor, some owed, some tail =>
    if tail.lamport < cursor.lamport ∧ cursor.lamport ≤ owed.tip.lamport then
      if cursor.lamport ≠ owed.tip.lamport ∨ cursor.entryHash = owed.tip.entryHash then .ok true
      else .error (.store "table-sync requested cursor conflicts with the promised suffix tip")
    else .ok false
  | _, _, _ => .ok false

/-- One page of an accepted chain, by lamport. Held entries are never transferred. -/
def acceptedChainEntries
    (limit : Nat) : Except EntriesError (List StoredEntry) :=
  if limit = 0 then .ok []
  else
    match pastOwedSuffix σ device start with
    | .error why => .error why
    | .ok true => .ok []
    | .ok false =>
      match serveFrom σ.log device start with
      | .error why => .error why
      | .ok none => .ok []
      | .ok (some window) =>
        .ok (((chainByLamport σ.log device).filter fun e => window.admits e.lamport).take limit)

end

/-! ## 2. The receiver -/

/-- The bounds of a session. -/
structure TableSessionLimits where
  chainsPerPage : Nat
  chainsPerSession : Nat
  entriesPerPage : Nat
  entriesPerSession : Nat

/-- The limits as shipped. -/
def TableSessionLimits.default : TableSessionLimits := ⟨1024, 65536, 32, 1000000⟩

/-- The frames of one direction. -/
inductive TableFrame where
  | chainInventory (stream : StreamId) (chains : List ChainHead)
  | chainFrontiers (stream : StreamId) (frontiers : List (DeviceFingerprint × FrontierState))
  | entries (stream : StreamId) (device : DeviceFingerprint) (entries : List VerifiedEntry)
  | inventoryDone (stream : StreamId)
  | streamDone (stream : StreamId) (continuationPending : Bool)
  | done

/-- The streams of one store. -/
abbrev Streams := StreamId → StreamStore

/-- One stream moved: the others see the hashes it now holds. -/
def Streams.put (ρ : Streams) (stream : StreamId) (σ : StreamStore) : Streams := fun other =>
  if other = stream then σ
  else
    let elsewhere hash := (ρ other).log.elsewhere hash || σ.log.entries.any fun e => e.entryHash = hash
    { ρ other with log := { (ρ other).log with elsewhere := elsewhere } }

/-- What the receiver works under: its bound, its account log, whether the peer may push, and the
    limits. -/
structure Receiver where
  bound : Nat
  ctx : StreamId → SyncCtx
  peerCanPush : Bool
  limits : TableSessionLimits

/-- Where the receiver stands: the streams to come, the inventory it answered, and its counts. -/
structure Receiving where
  streams : Streams
  items : List StreamId
  lastDevice : Option DeviceFingerprint
  inventory : Option (List ChainHead)
  received : Nat
  newlyStored : Nat
  offeredChains : Nat
  continuationPending : Bool

/-- A receiver before the first frame. -/
def Receiving.start (ρ : Streams) (items : List StreamId) : Receiving :=
  ⟨ρ, items, none, none, 0, 0, 0, false⟩

/-- Runs over the receiver's state; they fail where either side does. -/
abbrev Session := Run String Receiving

/-- The first head comes after the last device of the page before. -/
def orderedAfterPrevious (lastDevice : Option DeviceFingerprint) (chains : List ChainHead) : Bool :=
  match chains.head? with
  | none => false
  | some first => lastDevice.all (· < first.device)

section

variable (p : Receiver) (item : StreamId)

/-- One entry of a page. -/
def ingestEntry (offered : ChainHead) (e : VerifiedEntry) :
    Session Unit := fun r =>
  match ingestReceived p.bound (p.ctx item) (r.streams item)
      ⟨offered.device, e, offered.floor, some offered.tip⟩ with
  | none => none
  | some (.error why) => some (.error why)
  | some (.ok (outcome, σ)) =>
    some (.ok ((), { r with
      streams := r.streams.put item σ
      newlyStored := r.newlyStored + if outcome = .stored then 1 else 0 }))

/-- The entries of a page. -/
def ingestEntries (offered : ChainHead) :
    List VerifiedEntry → Session Unit
  | [] => pure ()
  | e :: later => do
    ingestEntry p item offered e
    ingestEntries offered later

/-- Between two inventories: another one, or the end of the stream. -/
def receiveInventory (later : List StreamId) (r : Receiving) :
    TableFrame → Session (Option TableFrame)
  | .chainInventory stream chains =>
    if p.peerCanPush = false then throw "read-only peer attempted to push table entries"
    else if stream ≠ item ∨ p.limits.chainsPerPage < chains.length ∨
        p.limits.chainsPerSession < r.offeredChains + chains.length ∨
        orderedAfterPrevious r.lastDevice chains = false then
      throw "peer chain inventory names the wrong stream or exceeds the session cap"
    else do
      set { r with
        offeredChains := r.offeredChains + chains.length
        lastDevice := chains.getLast?.map ChainHead.device
        inventory := some chains }
      pure (some (.chainFrontiers stream
        (chains.map fun c => (c.device, chainFrontier (r.streams item) c.device))))
  | .streamDone stream pending =>
    if stream = item then do
      set { r with
        continuationPending := r.continuationPending || pending
        items := later
        lastDevice := none }
      pure none
    else throw "peer sent an out-of-sequence table stream frame"
  | _ => throw "peer sent an out-of-sequence table stream frame"

/-- After an inventory was answered: entries of its chains, or its end. -/
def receiveEntries (chains : List ChainHead) (r : Receiving) :
    TableFrame → Session (Option TableFrame)
  | .entries stream device entries =>
    match chains.find? fun c => c.device = device with
    | none => throw "peer sent an out-of-sequence table inventory response"
    | some offered =>
      if stream ≠ item then throw "peer sent an out-of-sequence table inventory response"
      else if p.limits.entriesPerSession < r.received + entries.length then
        throw s!"peer streamed more than {p.limits.entriesPerSession} table entries"
      else do
        set { r with received := r.received + entries.length }
        ingestEntries p item offered entries
        pure none
  | .inventoryDone stream =>
    if stream = item then do
      set { r with inventory := none }
      pure none
    else throw "peer sent an out-of-sequence table inventory response"
  | _ => throw "peer sent an out-of-sequence table inventory response"

end

/-- The receiver takes a frame, and answers it if it asks for an answer. -/
def receiveFrame (p : Receiver) (frame : TableFrame) : Session (Option TableFrame) := do
  let r ← get
  match r.items, r.inventory with
  | item :: later, none => receiveInventory p item later r frame
  | item :: _, some chains => receiveEntries p item chains r frame
  | [], _ =>
    match frame with
    | .done => pure none
    | _ => throw "peer did not finish after its streams"

/-! ## 3. The sender -/

/-- What to do for a chain. -/
inductive ChainPlan where
  | complete
  | send (start : ChainStart)
  | pending
  /-- the peer's copy of the chain diverged at its tip -/
  | diverged
  deriving DecidableEq

/-- The floor stands above the cursor: what follows the cursor was compacted away. -/
def floorAbove (head : ChainHead) (lamport : Nat) : Option ChainCursor :=
  head.floor.filter fun floor => lamport < floor.lamport

/-- The plan, from the peer's frontier. -/
def chainPlan (head : ChainHead) : FrontierState → ChainPlan
  | .empty => .send .beginning
  | .accepted c =>
    if head.lamport < c.lamport then .complete
    else if c.lamport = head.lamport then
      if c.entryHash = head.entryHash then .complete else .diverged
    else
      match floorAbove head c.lamport with
      | some floor => .send (.at floor)
      | none => .send (.after c)
  | .restore c =>
    if head.lamport < c.lamport then .pending
    else
      match floorAbove head c.lamport with
      | some floor => .send (.at floor)
      | none => .send (.at c)

/-- What the sender works under: its own streams, whether it may push, and the session's bounds. -/
structure Sender where
  streams : Streams
  canPush : Bool
  limits : TableSessionLimits

/-- What the sender counts. -/
structure Sending where
  sent : Nat
  offeredChains : Nat
  streamPending : Bool
  continuationPending : Bool
  chainsSkipped : Nat
  deriving DecidableEq

/-- A sender before the first frame. -/
def Sending.start : Sending := ⟨0, 0, false, false, 0⟩

/-- The page before this empty one reached the head. -/
def deliveredThrough (chain : ChainHead) : ChainStart → Bool
  | .after c => chain.lamport < c.lamport ∨ (c.lamport = chain.lamport ∧ c.entryHash = chain.entryHash)
  | _ => false

section

variable (q : Sender) (p : Receiver) (item : StreamId)

/-- Send one chain, page by page; the session's own bound is enough. -/
def sendChain (chain : ChainHead) :
    Nat → ChainStart → Sending → Session Sending
  | 0, _, _ => outOfBound
  | turns + 1, start, acc =>
    if acc.sent < q.limits.entriesPerSession then
      let pageLimit := min q.limits.entriesPerPage (q.limits.entriesPerSession - acc.sent)
      match acceptedChainEntries (q.streams item) chain.device start pageLimit with
      | .error (.unservable _) => pure { acc with chainsSkipped := acc.chainsSkipped + 1 }
      | .error (.store why) => throw why
      | .ok entries =>
        match entries.getLast? with
        | none => pure { acc with streamPending := acc.streamPending || !deliveredThrough chain start }
        | some last =>
          if pageLimit < entries.length then
            throw "local table-sync entry page exceeds its transport bound"
          else do
            let _ ← receiveFrame p (.entries item chain.device (entries.map (·.toVerifiedEntry)))
            sendChain chain turns (.after last.cursor) { acc with sent := acc.sent + entries.length }
    else pure acc

/-- One chain of a page, as the receiver's frontier asks. -/
def serveChain (chain : ChainHead)
    (frontier : FrontierState) (acc : Sending) : Session Sending :=
  match chainPlan chain frontier with
  | .complete => pure acc
  | .pending => pure { acc with streamPending := true }
  | .diverged => pure { acc with chainsSkipped := acc.chainsSkipped + 1 }
  | .send start => sendChain q p item chain (q.limits.entriesPerSession + 1) start acc

/-- The chains of a page; a session that has sent all it may stops there. -/
def sendChains :
    List (ChainHead × FrontierState) → Sending → Session Sending
  | [], acc => pure acc
  | (chain, frontier) :: later, acc => do
    let acc ← serveChain q p item chain frontier acc
    match chainPlan chain frontier with
    | .send _ =>
      if q.limits.entriesPerSession ≤ acc.sent then pure acc else sendChains later acc
    | _ => sendChains later acc

end

/-- The devices of a page ascend. -/
def validChainPage (chains : List ChainHead) : Bool :=
  chains.zip chains.tail |>.all fun pair => pair.1.device < pair.2.device

/-- The answer to an inventory names its chains, one by one. -/
def frontiersMatch (item stream : StreamId) (chains : List ChainHead)
    (frontiers : List (DeviceFingerprint × FrontierState)) : Bool :=
  stream = item ∧ frontiers.map (·.1) = chains.map (·.device)

section

variable (q : Sender) (p : Receiver)

/-- The pages of one stream. Every page but the last offers a chain, so the bound is enough. -/
def sendPages (item : StreamId) :
    Nat → Option DeviceFingerprint → Sending → Session Sending
  | 0, _, _ => outOfBound
  | turns + 1, afterDevice, acc =>
    if q.canPush = false then pure acc
    else if q.limits.entriesPerSession ≤ acc.sent then pure { acc with streamPending := true }
    else if q.limits.chainsPerSession ≤ acc.offeredChains then
      if acceptedChainPage (q.streams item) afterDevice 1 = [] then pure acc
      else throw s!"table-sync manifest intersection exceeds the {q.limits.chainsPerSession}-device chain ceiling"
    else
      let chainLimit := min q.limits.chainsPerPage (q.limits.chainsPerSession - acc.offeredChains)
      let chains := acceptedChainPage (q.streams item) afterDevice chainLimit
      match chains.getLast? with
      | none => pure acc
      | some last =>
        if chainLimit < chains.length then
          throw s!"local table-sync chain page exceeds {chainLimit} chains"
        else if validChainPage chains = false then
          throw "local table-sync chain page is not canonical"
        else do
          let answer ← receiveFrame p (.chainInventory item chains)
          match answer with
          | some (.chainFrontiers stream frontiers) =>
            if frontiersMatch item stream chains frontiers = false then
              throw "peer chain frontiers do not match the offered inventory"
            else do
              let acc ← sendChains q p item (chains.zip (frontiers.map (·.2)))
                { acc with offeredChains := acc.offeredChains + chains.length }
              let _ ← receiveFrame p (.inventoryDone item)
              if q.limits.entriesPerSession ≤ acc.sent then pure { acc with streamPending := true }
              else sendPages item turns (some last.device) acc
          | _ => throw "peer did not answer a table chain inventory"

/-- One stream: what it still owes is pending from the start. -/
def sendStream (item : StreamId) (acc : Sending) : Session Sending := do
  let acc ← sendPages q p item (q.limits.chainsPerSession + 1) none
    { acc with streamPending := (q.streams item).streamPending }
  let _ ← receiveFrame p (.streamDone item acc.streamPending)
  pure { acc with continuationPending := acc.continuationPending || acc.streamPending }

/-- One stream after the other. -/
def sendStreams : List StreamId → Sending → Session Sending
  | [], acc => pure acc
  | item :: later, acc => do
    let acc ← sendStream q p item acc
    sendStreams later acc

/-- The whole direction. -/
def sendDirection (items : List StreamId) : Session Sending := do
  let acc ← sendStreams q p items .start
  let _ ← receiveFrame p .done
  pure acc

end

end RagRat.TableSync
