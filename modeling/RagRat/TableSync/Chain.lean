/-
  File:      RagRat/TableSync/Chain.lean
  Subject:   The accepted table log of one stream (`store.rs`): one hash chain per device, the
             entries held for a missing predecessor, the recorded floors and the tip witnesses.

  * `classify` -- how a verified entry fits its device's chain;
  * `acceptRowEntry`, `authorRowEntry` -- store a foreign entry, mint the next local one;
  * `classified`, `acceptRowEntry_accepts` -- what a fit says of the chain, and what an accept can do;
  * `held_lowest` -- of all entries offered for a gap, the lowest stay held.

  Signature and size of the envelope are checked before this: the entry is one `verify_signed`
  returned. The clock times of the log (`received_at_ms`, `gapped_at_ms`) are read by nothing here.
-/
import Mathlib.Data.List.Dedup
import RagRat.Lib.Ascending
import RagRat.TableSync.Converge

namespace RagRat.TableSync

open List

variable {log log' : ChainLog} {device d : DeviceFingerprint} {hash : EntryHash}
  {v a b : VerifiedEntry} {n : Nat} {ctx : AcceptCtx} {advertised : Option ChainCursor}

/-! ## 1. The log -/

/-- What the op bytes of an entry decode to. -/
inductive Payload where
  | known (op : RowOp) (addressable : ∀ pk ∈ op.pks, PkAddressable pk)
  | unknown
  | undecodable
  deriving DecidableEq

/-- An entry that passed its signature checks. -/
structure VerifiedEntry where
  entryHash : EntryHash
  streamId : StreamId
  device : DeviceFingerprint
  lamport : Nat
  prevHash : Option EntryHash
  payload : Payload
  deriving DecidableEq

/-- A row of `table_sync_entries`. -/
structure StoredEntry extends VerifiedEntry where
  pending : Option PendingReason
  lamport_lt : lamport < maxEntryLamport
  deriving DecidableEq

/-- One position of a chain. -/
structure ChainCursor where
  lamport : Nat
  entryHash : EntryHash
  deriving DecidableEq

/-- The log of one stream. -/
structure ChainLog where
  entries : List StoredEntry
  gapped : List VerifiedEntry
  retainedFloors : DeviceFingerprint → Option ChainCursor
  chainTips : List (DeviceFingerprint × ChainCursor)
  /-- the accepted entries of the store's other streams: a hash is looked up across all of them -/
  elsewhere : EntryHash → Bool

open ChainLog

/-- Nothing stored. -/
def ChainLog.empty : ChainLog := ⟨[], [], fun _ => none, [], fun _ => false⟩

/-- How far above the stream's clock an arrival may lie. -/
def maxLamportAdvance : Nat := 2 ^ 32

/-- The entries held for one chain. -/
def maxGappedPerChain : Nat := 4096

/-- The entry as a cursor. -/
def VerifiedEntry.cursor (v : VerifiedEntry) : ChainCursor := ⟨v.lamport, v.entryHash⟩

namespace ChainLog

section

variable (log : ChainLog)

/-- The lamport of a chain's floor. -/
def retainedFloor (device : DeviceFingerprint) : Option Nat :=
  (log.retainedFloors device).map (·.lamport)

/-- The highest position of the chain. -/
def chainTail (device : DeviceFingerprint) : Option ChainCursor :=
  (log.entries.filter fun e => e.device = device).foldl
    (fun tail e => match tail with
      | some t => if t.lamport < e.lamport then some e.cursor else some t
      | none => some e.cursor) none

/-- The hash is stored, in this stream or another. -/
def entryExists (hash : EntryHash) : Bool :=
  (log.entries.any fun e => e.entryHash = hash) || log.elsewhere hash

/-- The hash is held. -/
def gappedEntryExists (hash : EntryHash) : Bool :=
  log.gapped.any fun e => e.entryHash = hash

/-- The retained tip of the chain: chain state even where its entries are gone. -/
def chainWitness (device : DeviceFingerprint) : Option ChainCursor :=
  log.chainTips.lookup device

/-- The accepted or retained high-water of the stream. -/
def streamMaxLamport : Option Nat :=
  (log.entries.map (·.lamport) ++ log.chainTips.map (·.2.lamport)).max?

/-- One past the highest lamport of the stream, across all devices. -/
def nextStreamLamport : Nat :=
  match log.streamMaxLamport with
  | some highest => highest + 1
  | none => 0

/-- Below what the chain retains. -/
def belowFloor (device : DeviceFingerprint) (lamport : Nat) : Bool :=
  match log.retainedFloor device with
  | some floor => lamport < floor
  | none => false

/-- Without a held entry. -/
def dropGapped (hash : EntryHash) : ChainLog :=
  { log with gapped := log.gapped.filter fun e => e.entryHash ≠ hash }

section

variable (device : DeviceFingerprint)

/-- Record a floor, which only ever advances. -/
def recordFloor (floor : ChainCursor) : ChainLog :=
  match log.retainedFloors device with
  | some current =>
    if current.lamport < floor.lamport then
      { log with retainedFloors := Function.update log.retainedFloors device (some floor) }
    else log
  | none => { log with retainedFloors := Function.update log.retainedFloors device (some floor) }

/-- Drop the held entries of the chain below a floor: they can never promote. -/
def sweepGapped (floor : Nat) : ChainLog :=
  { log with gapped := log.gapped.filter fun e => ¬ (e.device = device ∧ e.lamport < floor) }

/-- A floor a peer advertised; what is held below it goes. -/
def recordAdoptedFloor (floor : ChainCursor) :
    ChainLog :=
  (log.recordFloor device floor).sweepGapped device floor.lamport

end

/-- Advance the chain's witness to the entry, never lowering it. -/
def raiseTip (v : VerifiedEntry) : ChainLog :=
  match log.chainWitness v.device with
  | some tip =>
    if tip.lamport < v.lamport ∨ (tip.lamport = v.lamport ∧ tip.entryHash = v.entryHash) then
      { log with chainTips := log.chainTips.map fun dt =>
          if dt.1 = v.device then (dt.1, v.cursor) else dt }
    else log
  | none => { log with chainTips := log.chainTips ++ [(v.device, v.cursor)] }

/-- Store an entry and raise its chain's tip. -/
def insertEntry (e : StoredEntry) : ChainLog :=
  { log with entries := log.entries ++ [e] }.raiseTip e.toVerifiedEntry

end

end ChainLog

/-! ## 2. Where an entry fits its chain -/

/-- **How an arrival fits its chain.** -/
inductive ChainFit where
  | ok | rootAdopt | restore | gap | conflict
  deriving DecidableEq

/-- The advertised floor may become the root: on a fresh chain, or past a stale tip. -/
def adoptable (log : ChainLog) (device : DeviceFingerprint) (floor : ChainCursor) : Bool :=
  match log.chainTail device, log.chainWitness device with
  | some tail, _ => tail.lamport < floor.lamport
  | none, some witness => floor = witness ∨ witness.lamport < floor.lamport
  | none, none => true

/-- The entry is the floor the sender advertised, and the chain may take it as its root. -/
def adoptsFloor (log : ChainLog) (v : VerifiedEntry) : Option ChainCursor → Bool
  | none => false
  | some floor => v.cursor = floor ∧ adoptable log v.device floor

/-- The fit against the retained witness of a chain whose entries are gone. -/
def fitWitness (witness : ChainCursor) (v : VerifiedEntry) : ChainFit :=
  if v.entryHash = witness.entryHash ∧ v.lamport = witness.lamport then .restore
  else
    match v.prevHash with
    | none => .conflict
    | some prev =>
      if prev = witness.entryHash ∧ witness.lamport < v.lamport then .ok
      else if v.lamport ≤ witness.lamport then .conflict
      else .gap

/-- The fit of an entry to the stored tail. -/
def fitTail (log : ChainLog) (v : VerifiedEntry) : ChainFit :=
  match v.prevHash, log.chainTail v.device with
  | none, none => .ok
  | none, some _ => .conflict
  | some prev, none => if log.entryExists prev then .conflict else .gap
  | some prev, some tail =>
    if prev = tail.entryHash ∧ tail.lamport < v.lamport then .ok
    else if v.lamport ≤ tail.lamport then .conflict
    else if log.entryExists prev then .conflict
    else .gap

/-- The floor first, then the witness of a purged chain, then the tail. -/
def classify (log : ChainLog) (v : VerifiedEntry) (advertised : Option ChainCursor) : ChainFit :=
  if adoptsFloor log v advertised then .rootAdopt
  else
    match log.chainTail v.device, log.chainWitness v.device with
    | none, some witness => fitWitness witness v
    | _, _ => fitTail log v

/-! ## 3. Holding an entry whose predecessor has not arrived -/

/-- The order the held entries of a chain are ranked by. -/
def gapRank (v : VerifiedEntry) : Nat ×ₗ EntryHash := toLex (v.lamport, v.entryHash)

/-- The entry of the chain furthest ahead. -/
def furthestGapped (log : ChainLog) (device : DeviceFingerprint) : Option VerifiedEntry :=
  (log.gapped.filter fun e => e.device = device).foldl
    (fun best e => match best with
      | some b => if gapRank b < gapRank e then some e else some b
      | none => some e) none

/-- Hold the entry, keeping those nearest the tail when the cap is reached. -/
def retainGappedEntry (log : ChainLog) (v : VerifiedEntry) : Bool × ChainLog :=
  let held := (log.gapped.filter fun e => e.device = v.device).length
  if maxGappedPerChain ≤ held then
    match furthestGapped log v.device with
    | some furthest =>
      if gapRank furthest ≤ gapRank v then (false, log)
      else
        (true, { log with gapped :=
          (log.gapped.filter fun e => e.entryHash ≠ furthest.entryHash) ++ [v] })
    | none => (true, { log with gapped := log.gapped ++ [v] })
  else (true, { log with gapped := log.gapped ++ [v] })

/-! ## 4. Accepting and authoring -/

/-- What accepting an entry came to. -/
inductive AcceptOutcome where
  | stored (e : RowEntry) (entryHash : EntryHash) (prevHash : Option EntryHash)
  | storedInert (reason : PendingReason) (entryHash : EntryHash) (prevHash : Option EntryHash)
  | alreadyPresent
  | gapRetained
  | alreadyGapped
  | gapChainFull
  | fork
  | unauthorized

/-- The stream, its tables, and who is a writer now. -/
structure AcceptCtx where
  expectedStream : StreamId
  expectedTables : List String
  effectiveWriter : DeviceFingerprint → Bool

/-- The outcome of storing a chain-continuous entry, and the projection state it is stored with. -/
def storedOutcome (ctx : AcceptCtx) (v : VerifiedEntry) (h : v.lamport < maxEntryLamport) :
    AcceptOutcome × Option PendingReason :=
  match v.payload with
  | .undecodable =>
    (.storedInert .undecodablePayload v.entryHash v.prevHash, some .undecodablePayload)
  | .unknown => (.storedInert .unknownOpKind v.entryHash v.prevHash, some .unknownOpKind)
  | .known op addressable =>
    if op.table ∈ ctx.expectedTables then
      (.stored ⟨op, ⟨⟨v.lamport, v.device⟩, h⟩, addressable⟩ v.entryHash v.prevHash, none)
    else (.storedInert .tableNotInScope v.entryHash v.prevHash, some .tableNotInScope)

/-- Store an entry that fits. -/
def storeEntry (ctx : AcceptCtx) (log : ChainLog) (v : VerifiedEntry)
    (h : v.lamport < maxEntryLamport) : AcceptOutcome × ChainLog :=
  let outcome := storedOutcome ctx v h
  (outcome.1, log.insertEntry ⟨v, outcome.2, h⟩)

/-- Store, hold or refuse an entry by its fit. The adopted floor is recorded on `rootAdopt` alone. -/
def acceptFit (ctx : AcceptCtx) (log : ChainLog) (v : VerifiedEntry)
    (advertised : Option ChainCursor) (h : v.lamport < maxEntryLamport) :
    AcceptOutcome × ChainLog :=
  match classify log v advertised, advertised with
  | .rootAdopt, some floor => storeEntry ctx (log.recordAdoptedFloor v.device floor) v h
  | .rootAdopt, none | .ok, _ | .restore, _ => storeEntry ctx log v h
  | .gap, _ =>
    let held := retainGappedEntry log v
    (if held.1 then .gapRetained else .gapChainFull, held.2)
  | .conflict, _ => (.fork, log)

/-- Above the stored tail. -/
def aheadOfTail (log : ChainLog) (v : VerifiedEntry) : Bool :=
  match log.chainTail v.device with
  | some tail => tail.lamport < v.lamport
  | none => true

/-- An exactly-matching floor entry held as gapped can never promote; the adoption takes it out. -/
def adoptableFloorRoot (log : ChainLog) (v : VerifiedEntry) : Option ChainCursor → Bool
  | none => false
  | some floor => v.cursor = floor ∧ aheadOfTail log v

/-- Verify, classify and store one foreign entry. -/
def acceptRowEntry (ctx : AcceptCtx) (log : ChainLog) (v : VerifiedEntry)
    (advertised : Option ChainCursor) : Except String (AcceptOutcome × ChainLog) :=
  if v.streamId ≠ ctx.expectedStream then
    .error "entry names a different stream than the one being synced"
  else if h : v.lamport < maxEntryLamport then
    let streamMax := log.streamMaxLamport.getD 0
    if streamMax + maxLamportAdvance < v.lamport then
      .error (s!"entry lamport {v.lamport} jumps more than {maxLamportAdvance} past the stream " ++
        s!"clock {streamMax} — refusing (a near-ceiling jump would dominate LWW and halt authoring)")
    else if log.entryExists v.entryHash then .ok (.alreadyPresent, log)
    else if log.belowFloor v.device v.lamport then .ok (.alreadyPresent, log)
    else if !ctx.effectiveWriter v.device then .ok (.unauthorized, log)
    else if log.gappedEntryExists v.entryHash then
      if adoptableFloorRoot log v advertised then
        .ok (acceptFit ctx (log.dropGapped v.entryHash) v advertised h)
      else .ok (.alreadyGapped, log)
    else .ok (acceptFit ctx log v advertised h)
  else .error s!"entry lamport {v.lamport} exceeds the protocol ceiling"

/-- Mint one local op as the next entry of its device: one past the stream's highest lamport. -/
def authorRowEntry (stream : StreamId) (log : ChainLog) (device : DeviceFingerprint)
    (entryHash : EntryHash) (op : RowOp) (addressable : ∀ pk ∈ op.pks, PkAddressable pk) :
    Except String (RowEntry × ChainLog) :=
  let tail := log.chainTail device
  if (log.chainWitness device).isSome ∧ tail ≠ log.chainWitness device then
    .error ("table-sync chain continuity is not restored through the retained local tip; " ++
      "refusing to author a second genesis")
  else
    let lamport := log.nextStreamLamport
    if h : lamport < maxEntryLamport then
      let v : VerifiedEntry :=
        ⟨entryHash, stream, device, lamport, tail.map (·.entryHash), .known op addressable⟩
      .ok (⟨op, ⟨⟨lamport, device⟩, h⟩, addressable⟩, log.insertEntry ⟨v, none, h⟩)
    else .error "stream lamport ceiling reached"

/-! ## 5. What accepting and authoring do to the log -/

section

variable (log : ChainLog) (e : StoredEntry)

theorem insertEntry_eq : log.insertEntry e =
    { log with entries := log.entries ++ [e], chainTips := (log.insertEntry e).chainTips } := by
  unfold insertEntry raiseTip
  split
  · split <;> rfl
  · rfl

@[simp] theorem insertEntry_entries : (log.insertEntry e).entries = log.entries ++ [e] := by
  rw [insertEntry_eq]

@[simp] theorem insertEntry_retainedFloors :
    (log.insertEntry e).retainedFloors = log.retainedFloors := by
  rw [insertEntry_eq]

end

section

variable (log) {floor : ChainCursor}

theorem recordFloor_of_lt
    (h : ∀ f, log.retainedFloors device = some f → f.lamport < floor.lamport) :
    log.recordFloor device floor =
      { log with retainedFloors := Function.update log.retainedFloors device (some floor) } := by
  unfold recordFloor
  split
  · rename_i f hf
    rw [if_pos (h f hf)]
  · rfl

theorem recordAdoptedFloor_dropGapped (hash : EntryHash) (device : DeviceFingerprint)
    (floor : ChainCursor) : (log.dropGapped hash).recordAdoptedFloor device floor =
      { (log.dropGapped hash).sweepGapped device floor.lamport with
        retainedFloors := (log.recordFloor device floor).retainedFloors } := by
  unfold recordAdoptedFloor recordFloor dropGapped
  simp only
  split
  · split <;> rfl
  · rfl

end

theorem retainGappedEntry_held (log : ChainLog) (v : VerifiedEntry) :
    ∃ held, (retainGappedEntry log v).2 = { log with gapped := held } ∧
      ∀ g ∈ held, g = v ∨ g ∈ log.gapped := by
  have happend : ∀ g ∈ log.gapped ++ [v], g = v ∨ g ∈ log.gapped := by
    intro g hg
    simpa [or_comm] using hg
  unfold retainGappedEntry
  simp only
  split
  · split
    · split
      · exact ⟨log.gapped, rfl, fun _ h => .inr h⟩
      · refine ⟨_, rfl, fun g hg => ?_⟩
        rcases mem_append.mp hg with hg | hg
        · exact .inr (mem_of_mem_filter hg)
        · exact .inl (mem_singleton.mp hg)
    · exact ⟨_, rfl, happend⟩
  · exact ⟨_, rfl, happend⟩

theorem max_of_mem (h : n ∈ log.entries.map (·.lamport) ++ log.chainTips.map (·.2.lamport)) :
    ∃ highest, log.streamMaxLamport = some highest ∧ n ≤ highest := by
  cases hmax : log.streamMaxLamport with
  | none =>
    rw [max?_eq_none_iff.mp hmax] at h
    cases h
  | some highest => exact ⟨highest, rfl, (max?_eq_some_iff.mp hmax).2 n h⟩

theorem lt_next_of_mem (h : n ∈ log.entries.map (·.lamport) ++ log.chainTips.map (·.2.lamport)) :
    n < log.nextStreamLamport := by
  obtain ⟨highest, hmax, hle⟩ := max_of_mem h
  unfold nextStreamLamport
  rw [hmax]
  exact Nat.lt_succ_of_le hle

theorem authorRowEntry_ok {stream : StreamId} {op : RowOp}
    {addressable : ∀ pk ∈ op.pks, PkAddressable pk} {e : RowEntry}
    (h : authorRowEntry stream log device hash op addressable = .ok (e, log')) :
    ((log.chainWitness device).isSome → log.chainTail device = log.chainWitness device) ∧
      ∃ hlt : log.nextStreamLamport < maxEntryLamport,
        e = ⟨op, ⟨⟨log.nextStreamLamport, device⟩, hlt⟩, addressable⟩ ∧
        log' = log.insertEntry ⟨⟨hash, stream, device, log.nextStreamLamport,
          (log.chainTail device).map (·.entryHash), .known op addressable⟩, none, hlt⟩ := by
  unfold authorRowEntry at h
  simp only at h
  split at h
  · cases h
  rename_i hcont
  split at h
  · cases h
    exact ⟨fun hsome => of_not_not fun hne => hcont ⟨hsome, hne⟩, _, rfl, rfl⟩
  · cases h

/-- The entry was put on the log. -/
def AcceptOutcome.stores : AcceptOutcome → Bool
  | .stored .. | .storedInert .. => true
  | _ => false

theorem storedOutcome_stores (ctx : AcceptCtx) (v : VerifiedEntry)
    (h : v.lamport < maxEntryLamport) : (storedOutcome ctx v h).1.stores = true := by
  unfold storedOutcome
  split
  · rfl
  · rfl
  · split <;> rfl

/-- The entry continues its chain: a first entry, the tail's successor, or, after a purge, the
    witness or its successor. -/
inductive Extends (log : ChainLog) (v : VerifiedEntry) : Prop where
  | genesis (ht : log.chainTail v.device = none) (hw : log.chainWitness v.device = none)
      (hp : v.prevHash = none)
  | next (t : ChainCursor) (ht : log.chainTail v.device = some t)
      (hp : v.prevHash = some t.entryHash) (hlt : t.lamport < v.lamport)
  | restore (ht : log.chainTail v.device = none) (hw : log.chainWitness v.device = some v.cursor)
  | past (w : ChainCursor) (ht : log.chainTail v.device = none)
      (hw : log.chainWitness v.device = some w) (hp : v.prevHash = some w.entryHash)
      (hlt : w.lamport < v.lamport)

/-- **What the fit of an entry says of its chain.** -/
inductive Classified (log : ChainLog) (v : VerifiedEntry) (advertised : Option ChainCursor) :
    ChainFit → Prop where
  | adopts (hadv : advertised = some v.cursor) (hadopt : adoptable log v.device v.cursor = true) :
      Classified log v advertised .rootAdopt
  | follows {fit : ChainFit} (hfit : fit = .ok ∨ fit = .restore)
      (hno : adoptsFloor log v advertised = false) (hext : Extends log v) :
      Classified log v advertised fit
  | gap (prev : EntryHash) (hp : v.prevHash = some prev)
      (htail : ∀ t, log.chainTail v.device = some t →
        t.lamport < v.lamport ∧ prev ≠ t.entryHash ∧ log.entryExists prev = false)
      (hwit : log.chainTail v.device = none → ∀ w, log.chainWitness v.device = some w →
        w.lamport < v.lamport ∧ prev ≠ w.entryHash) : Classified log v advertised .gap
  | conflict : Classified log v advertised .conflict

theorem classified (log : ChainLog) (v : VerifiedEntry) (advertised : Option ChainCursor) :
    Classified log v advertised (classify log v advertised) := by
  unfold classify
  split
  · rename_i hadopts
    cases advertised with
    | none => cases hadopts
    | some floor =>
      obtain ⟨rfl, hadopt⟩ := of_decide_eq_true hadopts
      exact .adopts rfl hadopt
  · rename_i hno
    have hno := (Bool.not_eq_true _).mp hno
    split
    · rename_i w ht hw
      unfold fitWitness
      split
      · rename_i heq
        exact .follows (.inr rfl) hno (.restore ht (by rw [hw, VerifiedEntry.cursor, heq.1, heq.2]))
      split
      · exact .conflict
      rename_i prev hp
      split
      · rename_i hok
        exact .follows (.inl rfl) hno (.past w ht hw (by rw [hp, hok.1]) hok.2)
      rename_i hnext
      split
      · exact .conflict
      rename_i hlow
      have hlow := not_le.mp hlow
      refine .gap prev hp (by simp [ht]) fun _ w' hw' => ?_
      obtain rfl := Option.some.inj (hw.symm.trans hw')
      exact ⟨hlow, fun heq => hnext ⟨heq, hlow⟩⟩
    · rename_i hnone
      unfold fitTail
      split
      · rename_i hp ht
        have hw := Option.eq_none_iff_forall_ne_some.mpr fun w hw => hnone w ht hw
        exact .follows (.inl rfl) hno (.genesis ht hw hp)
      · exact .conflict
      · rename_i prev hp ht
        split
        · exact .conflict
        · exact .gap prev hp (by simp [ht]) fun _ w hw => (hnone w ht hw).elim
      · rename_i prev t hp ht
        split
        · rename_i hok
          exact .follows (.inl rfl) hno (.next t ht (by rw [hp, hok.1]) hok.2)
        rename_i hnext
        split
        · exact .conflict
        rename_i hlow
        have hlow := not_le.mp hlow
        split
        · exact .conflict
        · rename_i hnew
          refine .gap prev hp (fun t' ht' => ?_) (by simp [ht])
          obtain rfl := Option.some.inj (ht.symm.trans ht')
          exact ⟨hlow, fun heq => hnext ⟨heq, hlow⟩, (Bool.not_eq_true _).mp hnew⟩

/-- Not stored, not below the chain's floor, and signed by a writer. -/
structure Fresh (ctx : AcceptCtx) (log : ChainLog) (v : VerifiedEntry) : Prop where
  lt : v.lamport < maxEntryLamport
  new : log.entryExists v.entryHash = false
  above : log.belowFloor v.device v.lamport = false
  writer : ctx.effectiveWriter v.device = true

/-- **What an accept can do**: leave the log, or take a fresh entry out of the held ones and store,
    hold or refuse it by its fit. -/
inductive Accepts (ctx : AcceptCtx) (log : ChainLog) (v : VerifiedEntry)
    (advertised : Option ChainCursor) (r : AcceptOutcome × ChainLog) : Prop where
  | known (hknown : log.entryExists v.entryHash = true) (hr : r = (.alreadyPresent, log))
  | below (hbelow : log.belowFloor v.device v.lamport = true) (hr : r = (.alreadyPresent, log))
  | outsider (hout : ctx.effectiveWriter v.device = false) (hr : r = (.unauthorized, log))
  | again (hgap : log.gappedEntryExists v.entryHash = true)
      (hroot : adoptableFloorRoot log v advertised = false) (hr : r = (.alreadyGapped, log))
  | adopts (hv : Fresh ctx log v) (hadv : advertised = some v.cursor)
      (hadopt : adoptable log v.device v.cursor = true)
      (hr : r = storeEntry ctx ((log.dropGapped v.entryHash).recordAdoptedFloor v.device v.cursor)
        v hv.lt)
  | stores (hv : Fresh ctx log v) (hno : adoptsFloor log v advertised = false)
      (hext : Extends log v) (hr : r = storeEntry ctx (log.dropGapped v.entryHash) v hv.lt)
  | holds (hv : Fresh ctx log v) (hfit : classify log v advertised = .gap) (o : AcceptOutcome)
      (ho : o.stores = false) (hr : r = (o, (retainGappedEntry (log.dropGapped v.entryHash) v).2))
  | forks (hv : Fresh ctx log v) (hfit : classify log v advertised = .conflict)
      (hr : r = (.fork, log.dropGapped v.entryHash))

theorem dropGapped_eq_self (h : log.gappedEntryExists hash = false) : log.dropGapped hash = log := by
  unfold dropGapped
  rw [filter_eq_self.mpr fun e he => decide_eq_true (of_decide_eq_false ?_)]
  exact (Bool.not_eq_true _).mp fun heq =>
    Bool.false_ne_true (h.symm.trans (any_eq_true.mpr ⟨e, he, heq⟩))

theorem acceptFit_accepts (hv : Fresh ctx log v) :
    Accepts ctx log v advertised (acceptFit ctx (log.dropGapped v.entryHash) v advertised hv.lt) := by
  have hc := classified log v advertised
  have hsame : classify (log.dropGapped v.entryHash) v advertised = classify log v advertised := rfl
  unfold acceptFit
  rw [hsame]
  generalize hfit : classify log v advertised = fit at hc
  cases hc with
  | adopts hadv hadopt =>
    subst hadv
    exact .adopts hv rfl hadopt rfl
  | follows hok hno hext =>
    rcases hok with rfl | rfl
    · exact .stores hv hno hext rfl
    · exact .stores hv hno hext rfl
  | gap =>
    refine .holds hv hfit _ ?_ rfl
    split <;> rfl
  | conflict => exact .forks hv hfit rfl

theorem acceptRowEntry_accepts {r : AcceptOutcome × ChainLog}
    (h : acceptRowEntry ctx log v advertised = .ok r) :
    (v.streamId = ctx.expectedStream ∧ v.lamport < maxEntryLamport ∧
      v.lamport ≤ log.streamMaxLamport.getD 0 + maxLamportAdvance) ∧
      Accepts ctx log v advertised r := by
  unfold acceptRowEntry at h
  split at h
  · cases h
  rename_i hstream
  split at h
  · rename_i hlt
    simp only at h
    split at h
    · cases h
    rename_i hadv
    refine ⟨⟨not_not.mp hstream, hlt, not_lt.mp hadv⟩, ?_⟩
    split at h
    · rename_i hknown
      exact .known hknown (Except.ok.inj h).symm
    rename_i hnew
    split at h
    · rename_i hbelow
      exact .below hbelow (Except.ok.inj h).symm
    rename_i habove
    split at h
    · rename_i hout
      exact .outsider ((Bool.not_eq_eq_eq_not).mp hout) (Except.ok.inj h).symm
    rename_i hwriter
    have hv : Fresh ctx log v := ⟨hlt, (Bool.not_eq_true _).mp hnew,
      (Bool.not_eq_true _).mp habove, by simpa using hwriter⟩
    split at h
    · rename_i hgap
      split at h
      · exact Except.ok.inj h ▸ acceptFit_accepts hv
      · rename_i hroot
        exact .again hgap ((Bool.not_eq_true _).mp hroot) (Except.ok.inj h).symm
    · rename_i hgap
      have hfit : Accepts ctx log v advertised _ := acceptFit_accepts hv
      rw [dropGapped_eq_self ((Bool.not_eq_true _).mp hgap)] at hfit
      exact Except.ok.inj h ▸ hfit
  · cases h

/-! ## 6. Which entries stay held -/

/-- The held entries of a chain. -/
def ChainLog.heldOf (log : ChainLog) (d : DeviceFingerprint) : List VerifiedEntry :=
  log.gapped.filter fun e => e.device = d

/-- What the accept does with an entry whose predecessor is missing. -/
def offerGapped (log : ChainLog) (v : VerifiedEntry) : ChainLog :=
  if log.gappedEntryExists v.entryHash then log else (retainGappedEntry log v).2

theorem gap_not_root (hfit : classify log v advertised = .gap) :
    adoptableFloorRoot log v advertised = false := by
  refine Bool.eq_false_iff.mpr fun hroot => ?_
  cases advertised with
  | none => cases hroot
  | some floor =>
    obtain ⟨rfl, hahead⟩ := of_decide_eq_true hroot
    unfold classify at hfit
    split at hfit
    · cases hfit
    rename_i hno
    simp only [adoptsFloor, true_and, Bool.decide_eq_true, adoptable] at hno
    cases htail : log.chainTail v.device with
    | some tail => simp_all [aheadOfTail, VerifiedEntry.cursor]
    | none =>
      cases hw : log.chainWitness v.device with
      | none => simp_all
      | some witness =>
        -- the floor is neither the witness nor past it, so the entry is refused
        simp only [htail, hw, Bool.not_eq_true, decide_eq_false_iff_not, not_or, not_lt] at hno hfit
        unfold fitWitness at hfit
        have hle : v.lamport ≤ witness.lamport := hno.2
        split_ifs at hfit
        split at hfit
        · cases hfit
        · rw [if_neg fun h => absurd h.2 (not_lt.mpr hle)] at hfit
          cases hfit

theorem acceptRowEntry_offers (hv : Fresh ctx log v) (hstream : v.streamId = ctx.expectedStream)
    (hadvance : v.lamport ≤ log.streamMaxLamport.getD 0 + maxLamportAdvance)
    (hfit : classify log v advertised = .gap) :
    ∃ o, acceptRowEntry ctx log v advertised = .ok (o, offerGapped log v) ∧ o.stores = false := by
  have hroot : adoptableFloorRoot log v advertised = false := gap_not_root hfit
  simp only [acceptRowEntry, hstream, ne_eq, not_true_eq_false, if_false, dif_pos hv.lt,
    not_lt.mpr hadvance, hv.new, hv.above, hv.writer, hroot, offerGapped, Bool.false_eq_true,
    Bool.not_true]
  split
  · exact ⟨_, rfl, rfl⟩
  · simp only [acceptFit, hfit]
    refine ⟨_, rfl, ?_⟩
    split <;> rfl

/-- **The buffer of a chain after some offers**: each hash once, within the cap, and full before
    anything that was offered and is not held. -/
structure Buffers (log : ChainLog) (d : DeviceFingerprint) (offered : List VerifiedEntry) : Prop where
  keyed : (log.gapped.map (·.entryHash)).Nodup
  among : ∀ e ∈ log.heldOf d, e ∈ offered
  cap : (log.heldOf d).length ≤ maxGappedPerChain
  before : ∀ v ∈ offered, v ∉ log.heldOf d →
    maxGappedPerChain ≤ (log.heldOf d).length ∧ ∀ e ∈ log.heldOf d, gapRank e < gapRank v

section Held

variable {offered : List VerifiedEntry}

theorem gapRank_hash (h : gapRank a = gapRank b) :
    a.entryHash = b.entryHash := (Prod.mk.inj (toLex_inj.mp h)).2

theorem furthestGapped_max (h : log.heldOf d ≠ []) : ∃ f ∈ log.heldOf d,
    furthestGapped log d = some f ∧ ∀ e ∈ log.heldOf d, gapRank e ≤ gapRank f :=
  (Lib.Ascending.foldl_best gapRank (fun _ => rfl) (fun _ _ => rfl) _).resolve_left fun hnil => h hnil.1

theorem Buffers.nodup (h : Buffers log d offered) : (log.heldOf d).Nodup :=
  (h.keyed.of_map _).filter _

theorem Buffers.append (h : Buffers log d offered) (hd : v.device = d)
    (hnew : ∀ g ∈ log.gapped, g.entryHash ≠ v.entryHash) {p : VerifiedEntry → Bool}
    (hlen : ((log.heldOf d).filter p).length < maxGappedPerChain)
    (hbefore : ∀ w ∈ offered, w ∉ (log.heldOf d).filter p →
      maxGappedPerChain ≤ ((log.heldOf d).filter p).length + 1 ∧ gapRank v < gapRank w ∧
        ∀ e ∈ (log.heldOf d).filter p, gapRank e < gapRank w) :
    Buffers { log with gapped := log.gapped.filter p ++ [v] } d (v :: offered) := by
  have hheld : ChainLog.heldOf { log with gapped := log.gapped.filter p ++ [v] } d =
      (log.heldOf d).filter p ++ [v] := by
    simp [ChainLog.heldOf, filter_filter, Bool.and_comm, hd]
  refine ⟨?_, fun e he => ?_, ?_, fun w hw hno => ?_⟩
  · rw [map_append, map_singleton, nodup_append]
    refine ⟨h.keyed.sublist (filter_sublist.map _), nodup_singleton _, ?_⟩
    rintro _ hx _ hy rfl
    obtain ⟨g, hg, heq⟩ := mem_map.mp hx
    exact hnew g (mem_of_mem_filter hg) (heq.trans (mem_singleton.mp hy))
  · rw [hheld, mem_append, mem_singleton] at he
    exact mem_cons.mpr (he.symm.imp_right fun he => h.among e (mem_of_mem_filter he))
  · rw [hheld, length_append]
    exact hlen
  · rw [hheld, mem_append, mem_singleton, not_or] at hno
    obtain ⟨hfull, hv, hall⟩ := hbefore w ((mem_cons.mp hw).resolve_left hno.2) hno.1
    rw [hheld, length_append, forall_mem_append, forall_mem_singleton]
    exact ⟨hfull, hall, hv⟩

theorem Buffers.offer (h : Buffers log d offered) (hd : v.device = d)
    (hsame : ∀ g ∈ log.gapped, g.entryHash = v.entryHash → g = v) :
    Buffers (offerGapped log v) d (v :: offered) := by
  unfold offerGapped
  by_cases hheld : log.gappedEntryExists v.entryHash = true
  · obtain ⟨g, hg, heq⟩ := any_eq_true.mp hheld
    obtain rfl := hsame g hg (of_decide_eq_true heq)
    rw [if_pos hheld]
    refine ⟨h.keyed, fun e he => mem_cons_of_mem g (h.among e he), h.cap, fun w hw hno => ?_⟩
    refine h.before w ((mem_cons.mp hw).resolve_left ?_) hno
    rintro rfl
    exact hno (mem_filter.mpr ⟨hg, decide_eq_true hd⟩)
  have hnew : ∀ g ∈ log.gapped, g.entryHash ≠ v.entryHash := fun g hg heq =>
    hheld (any_eq_true.mpr ⟨g, hg, decide_eq_true heq⟩)
  rw [if_neg hheld, retainGappedEntry, hd, ← heldOf]
  split
  · rename_i hfull
    obtain ⟨f, hf, hfar, hmax⟩ := furthestGapped_max (ne_nil_of_length_pos
      (lt_of_lt_of_le (by decide) hfull))
    have hbelow : ∀ e ∈ log.heldOf d, e.entryHash ≠ f.entryHash → gapRank e < gapRank f :=
      fun e he hne => lt_of_le_of_ne (hmax e he) fun heq => hne (gapRank_hash heq)
    simp only [hfar]
    split
    · -- the newcomer is the furthest ahead of all
      rename_i hle
      refine ⟨h.keyed, fun e he => mem_cons_of_mem v (h.among e he), h.cap, fun w hw hno => ?_⟩
      rcases mem_cons.mp hw with rfl | hw
      · refine ⟨hfull, fun e he => lt_of_le_of_ne ((hmax e he).trans hle) fun heq => ?_⟩
        exact hnew e (mem_of_mem_filter he) (gapRank_hash heq)
      · exact h.before w hw hno
    · rename_i hlt
      have hlt := not_le.mp hlt
      have hone : ∀ e ∈ log.heldOf d, e.entryHash = f.entryHash → e = f := fun e he heq =>
        inj_on_of_nodup_map h.keyed (mem_of_mem_filter he) (mem_of_mem_filter hf) heq
      have hlen : ((log.heldOf d).filter fun e => e.entryHash ≠ f.entryHash).length + 1 =
          (log.heldOf d).length := by
        have hdrop : ((log.heldOf d).filter fun e => e.entryHash ≠ f.entryHash) =
            (log.heldOf d).erase f := by
          rw [h.nodup.erase_eq_filter]
          refine filter_congr fun e he => ?_
          rw [Bool.eq_iff_iff, decide_eq_true_iff, bne_iff_ne]
          exact not_congr ⟨hone e he, congrArg _⟩
        rw [hdrop, length_erase_of_mem hf, Nat.sub_add_cancel (length_pos_of_mem hf)]
      refine h.append hd hnew (by have := h.cap; omega) fun w hw hno => ⟨by omega, ?_⟩
      by_cases hwf : w = f
      · subst hwf
        exact ⟨hlt, fun e he => hbelow e (mem_of_mem_filter he)
          (of_decide_eq_true (mem_filter.mp he).2)⟩
      · have hout : w ∉ log.heldOf d := fun hmem => hno (mem_filter.mpr
          ⟨hmem, decide_eq_true fun heq => hwf (hone w hmem heq)⟩)
        have hall := (h.before w hw hout).2
        exact ⟨hlt.trans (hall f hf), fun e he => hall e (mem_of_mem_filter he)⟩
  · rename_i hroom
    have happ := @Buffers.append _ _ _ _ h hd hnew (fun _ => true)
    rw [filter_true, filter_true] at happ
    exact happ (not_le.mp hroom) fun w hw hno => absurd (h.before w hw hno).1 hroom

theorem Buffers.offers (offers : List VerifiedEntry) (h : Buffers log d offered)
    (hdev : ∀ v ∈ offers, v.device = d)
    (hsame : ∀ v ∈ offers, ∀ g ∈ log.gapped ++ offers, g.entryHash = v.entryHash → g = v) :
    Buffers (offers.foldl offerGapped log) d (offers.reverse ++ offered) := by
  induction offers generalizing log offered with
  | nil => exact h
  | cons v offers ih =>
    have hgapped : ∀ g ∈ (offerGapped log v).gapped, g = v ∨ g ∈ log.gapped := by
      unfold offerGapped
      split
      · exact fun g hg => .inr hg
      · obtain ⟨held, hlog, hheld⟩ := retainGappedEntry_held log v
        rw [hlog]
        exact hheld
    rw [reverse_cons, append_assoc]
    refine ih (h.offer (hdev v mem_cons_self) fun g hg => hsame v mem_cons_self g
      (mem_append_left _ hg)) (forall_mem_cons.mp hdev).2 fun w hw g hg => ?_
    refine hsame w (mem_cons_of_mem v hw) g ?_
    rcases mem_append.mp hg with hg | hg
    · rcases hgapped g hg with rfl | hg
      · simp
      · exact mem_append_left _ hg
    · simp [hg]

/-- **The held entries are the lowest of all that were offered**, each once: an offered entry is held
    in the end where fewer than the cap of the distinct ones offered rank before it. No order of
    arrival enters, and nothing of a higher rank displaces a lower one. -/
theorem held_lowest (log : ChainLog) (d : DeviceFingerprint) (offers : List VerifiedEntry)
    (hkeyed : (log.gapped.map (·.entryHash)).Nodup) (hnone : log.heldOf d = [])
    (hdev : ∀ v ∈ offers, v.device = d)
    (hsame : ∀ v ∈ offers, ∀ g ∈ log.gapped ++ offers, g.entryHash = v.entryHash → g = v) :
    ((offers.foldl offerGapped log).heldOf d).Nodup ∧
    ∀ v, v ∈ (offers.foldl offerGapped log).heldOf d ↔ v ∈ offers ∧
      (offers.dedup.filter fun e => gapRank e < gapRank v).length < maxGappedPerChain := by
  have hstart : Buffers log d [] := ⟨hkeyed, by simp [hnone], by simp [hnone], nofun⟩
  have h := hstart.offers offers hdev hsame
  rw [append_nil] at h
  generalize offers.foldl offerGapped log = log' at h
  refine ⟨h.nodup, fun v => ⟨fun hv => ⟨mem_reverse.mp (h.among v hv), ?_⟩, fun ⟨hv, hlow⟩ => ?_⟩⟩
  · -- all that rank before it are held
    have hsub : (v :: offers.dedup.filter fun e => gapRank e < gapRank v) ⊆ log'.heldOf d := by
      refine cons_subset.mpr ⟨hv, fun e he => ?_⟩
      obtain ⟨he, hlt⟩ := mem_filter.mp he
      by_contra hout
      exact lt_asymm (of_decide_eq_true hlt)
        ((h.before e (mem_reverse.mpr (mem_dedup.mp he)) hout).2 v hv)
    refine (subperm_of_subset (nodup_cons.mpr ⟨?_, ?_⟩) hsub).length_le.trans h.cap
    · simp
    · exact (nodup_dedup offers).filter _
  · -- all that are held rank before one that is not
    by_contra hout
    obtain ⟨hfull, hall⟩ := h.before v (mem_reverse.mpr hv) hout
    refine absurd (hfull.trans (subperm_of_subset h.nodup fun e he => ?_).length_le) (not_le.mpr hlow)
    exact mem_filter.mpr ⟨mem_dedup.mpr (mem_reverse.mp (h.among e he)), decide_eq_true (hall e he)⟩

/-- The entry of a chain at this distance from a predecessor that is missing. -/
def gapAt (i : Nat) : VerifiedEntry := ⟨Fin.ofNat _ (i + 10), 0, 1, i + 1, some 5, .unknown⟩

theorem gapRank_gapAt {i j : Nat} : gapRank (gapAt i) < gapRank (gapAt j) ↔ i < j := by
  rw [gapRank, gapRank, Prod.Lex.toLex_lt_toLex]
  refine ⟨?_, fun h => .inl (Nat.succ_lt_succ h)⟩
  rintro (h | ⟨h, hlt⟩)
  · exact Nat.succ_lt_succ_iff.mp h
  · cases Nat.succ.inj h
    exact absurd hlt (lt_irrefl _)

/-- A full buffer of later entries comes first, the nearest last: it is held, and the furthest has
    gone. -/
theorem held_lowest_full :
    let offers := (range' 1 maxGappedPerChain ++ [0]).map gapAt
    gapAt 0 ∈ (offers.foldl offerGapped .empty).heldOf 1 ∧
    gapAt maxGappedPerChain ∉ (offers.foldl offerGapped .empty).heldOf 1 := by
  intro offers
  have hinj : Function.Injective gapAt := fun i j h =>
    Nat.succ.inj (congrArg VerifiedEntry.lamport h)
  have hsame : ∀ v ∈ offers, ∀ g ∈ empty.gapped ++ offers, g.entryHash = v.entryHash → g = v := by
    intro v hv g hg heq
    obtain ⟨i, hi, rfl⟩ := mem_map.mp hv
    obtain ⟨j, hj, rfl⟩ := mem_map.mp hg
    have hlt : ∀ k ∈ range' 1 maxGappedPerChain ++ [0], k ≤ 4096 := by
      intro k hk
      simp only [maxGappedPerChain, mem_append, mem_range'_1, mem_singleton] at hk
      omega
    have hval : (j + 10) % 2 ^ 256 = (i + 10) % 2 ^ 256 := congrArg Fin.val heq
    have hi := hlt i hi
    have hj := hlt j hj
    rw [Nat.mod_eq_of_lt (by omega), Nat.mod_eq_of_lt (by omega)] at hval
    rw [Nat.add_right_cancel hval]
  have hdev : ∀ v ∈ offers, v.device = 1 := by
    intro v hv
    obtain ⟨i, -, rfl⟩ := mem_map.mp hv
    rfl
  have hrank : ∀ j, (offers.dedup.filter fun e => gapRank e < gapRank (gapAt j)).length =
      ((range' 1 maxGappedPerChain ++ [0]).filter (· < j)).length := by
    intro j
    have hnodup : offers.Nodup := (nodup_map_iff hinj).mpr
      ((nodup_append_comm).mpr (nodup_cons.mpr ⟨by simp, nodup_range'⟩))
    rw [hnodup.dedup, filter_map, length_map]
    simp only [Function.comp_def, gapRank_gapAt]
  have hlow := (held_lowest empty 1 offers nodup_nil rfl hdev hsame).2
  rw [hlow, hlow, hrank, hrank]
  exact ⟨⟨mem_map_of_mem (by simp), by simp [maxGappedPerChain]⟩, fun h => absurd h.2 (by decide +kernel)⟩

end Held

end RagRat.TableSync
