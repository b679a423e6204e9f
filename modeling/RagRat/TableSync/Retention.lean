/-
  File:      RagRat/TableSync/Retention.lean
  Subject:   RETENTION OF THE TABLE LOG (`retention.rs`): compact a chain prefix below a floor, never
             above a pin, and what a peer that folds only the retained entries is owed.

  A replica holds the log of one stream and its tables, receives and authors entries and compacts
  chains (`step`); `Reached` is what it reaches, with every entry it ever accepted.

  * `chainPins`, `compactChainPrefix` -- the entries still carrying merge state, and the compaction
    that refuses a floor above one;
  * `retention_keeps_live_rows` -- any set of entries between the stored and the accepted ones folds
    to the same live rows, under two conditions; `retention_loses_live_rows` -- both are needed.
-/
import RagRat.TableSync.Carriers
import RagRat.TableSync.Chain

namespace RagRat.TableSync

open List
open Store

variable {es xs fs new : List RowEntry} {d device : DeviceFingerprint} {base log log' : ChainLog}
  {hash entryHash : EntryHash} {sc : Scope} {σ σ' τ : Replica} {floor : ChainCursor} {name : String}
  {t : Table} {e : RowEntry} {f : Nat} {ctx : AcceptCtx} {v : VerifiedEntry} {se : StoredEntry}
  {advertised : Option ChainCursor} {cmd : Command} {st : Statement} {a : Action}
  {cmds : List Command}

/-! ## 1. A stream's replica -/

/-- A registered table and what its schema adds. -/
structure Table where
  spec : TableSpec
  schema : Schema spec

/-- The scope a stream is of: its tables, the repository and the stream's id. -/
structure Scope where
  sha256 : Lib.Cbor.Bytes → Bytes32
  tables : List Table
  repoId : String
  streamId : StreamId

/-- One stream: its chains and its tables. -/
structure Replica where
  log : ChainLog
  tables : String → Store

open Replica

/-- A new one. -/
def Replica.empty : Replica := ⟨ChainLog.empty, fun _ => Store.empty⟩

namespace Scope

variable (sc : Scope)

/-- A table by its name. -/
def table? (name : String) : Option Table := sc.tables.find? fun t => t.spec.name = name

/-- The names of the tables. -/
def tableNames : List String := sc.tables.map (·.spec.name)

/-- Fold an entry into the table it names. -/
def applyEntry (tables : String → Store) (e : RowEntry) : ApplyOutcome × (String → Store) :=
  match sc.table? e.op.table with
  | some t =>
    let applied := TableSync.applyEntry sc.sha256 t.spec t.schema sc.repoId (tables e.op.table) e
    (applied.1, Function.update tables e.op.table applied.2)
  | none => (.unprojectable .tableNotInScope, tables)

/-- The tables after folding the entries in order. -/
def fold (tables : String → Store) (es : List RowEntry) : String → Store :=
  es.foldl (fun tables e => (sc.applyEntry tables e).2) tables

end Scope

/-- Every entry settles when the list is folded in order. -/
def Scope.foldSettles (sc : Scope) (tables : String → Store) : List RowEntry → Bool
  | [] => true
  | e :: es =>
    (sc.applyEntry tables e).1.settled && sc.foldSettles (sc.applyEntry tables e).2 es

/-! ## 2. Pins -/

/-- A tombstone one chain states: the row and the delete identity it competes under. -/
structure StatedTombstone where
  tableName : String
  rowPk : String
  identity : RowClock
  deriving DecidableEq

/-- What an entry is kept for. -/
inductive PinKind where
  | liveRow (tableName rowPk : String)
  | statements (rows : List StatedTombstone)
  deriving DecidableEq

/-- An entry that must be kept. -/
structure Pin where
  lamport : Nat
  kind : PinKind
  deriving DecidableEq

/-- A line of the pin query: the lamport, the row, and the tombstone if the row has no live clock. -/
structure PinRow where
  lamport : Nat
  tableName : String
  rowPk : String
  stated : Option RowClock
  deriving DecidableEq

/-- By lamport, table and row. -/
def PinRow.le (a b : PinRow) : Bool :=
  a.lamport < b.lamport || (a.lamport == b.lamport &&
    (a.tableName < b.tableName || (a.tableName == b.tableName && a.rowPk ≤ b.rowPk)))

/-- The lines of one table's statements on the chain of `device` within the window. -/
def pinRows (name : String) (s : Store) (device : DeviceFingerprint) (start below : Nat) :
    List PinRow :=
  (s.rowStatements.filterMap fun st =>
    if st.device = device ∧ start ≤ st.lamport ∧ st.lamport < below then
      (s.rowClocks st.rowPk).map fun _ => ⟨st.lamport, name, st.rowPk, none⟩
    else none) ++
  (s.tombstoneStatements.filterMap fun st =>
    if st.device = device ∧ start ≤ st.lamport ∧ st.lamport < below ∧
        s.rowClocks st.rowPk = none then
      (s.rowTombstones st.rowPk).map fun d => ⟨st.lamport, name, st.rowPk, some d⟩
    else none)

/-- The pin of one row. -/
def PinRow.pin (r : PinRow) : Pin :=
  match r.stated with
  | some d => ⟨r.lamport, .statements [⟨r.tableName, r.rowPk, d⟩]⟩
  | none => ⟨r.lamport, .liveRow r.tableName r.rowPk⟩

/-- One entry states many tombstones: a stated row joins the last pin of its own lamport. -/
def extendLast (pins : List Pin) (r : PinRow) : Option (List Pin) :=
  match pins, r.stated with
  | ⟨last, .statements rows⟩ :: rest, some d =>
    if last = r.lamport then some (⟨last, .statements (rows ++ [⟨r.tableName, r.rowPk, d⟩])⟩ :: rest)
    else none
  | _, _ => none

/-- Gather the lines into pins, newest first, at most `limit` of them. -/
def gatherPins (limit : Nat) (pins : List Pin) : List PinRow → List Pin
  | [] => pins
  | r :: rows =>
    match extendLast pins r with
    | some pins' => gatherPins limit pins' rows
    | none => if limit ≤ pins.length then pins else gatherPins limit (r.pin :: pins) rows

/-- The pins on the chain of `device` with `start ≤ lamport < below`, oldest first. -/
def chainPins (sc : Scope) (σ : Replica) (device : DeviceFingerprint) (start below limit : Nat) :
    List Pin :=
  let rows := sc.tableNames.flatMap fun name => pinRows name (σ.tables name) device start below
  (gatherPins limit [] (rows.insertionSort fun a b => a.le b)).reverse

/-! ## 3. Compaction -/

/-- What a compaction took. -/
structure CompactionReport where
  droppedEntries : Nat
  sweptGapped : Nat
  deriving DecidableEq

/-- What a compaction at `floor` keeps of a chain; an entry retained for replay is never dropped. -/
def ChainLog.dropPrefix (log : ChainLog) (device : DeviceFingerprint) (floor : Nat) : ChainLog :=
  { log with entries :=
      log.entries.filter fun e => ¬ (e.device = device ∧ e.lamport < floor ∧ e.pending = none) }

open ChainLog

/-- The error that names the pin. -/
def Pin.refusal (pin : Pin) (floor : Nat) : String :=
  let (what, tableName, rowPk) := match pin.kind with
    | .liveRow tableName rowPk => ("carries", tableName, rowPk)
    | .statements (row :: _) => ("states the delete of", row.tableName, row.rowPk)
    | .statements [] => ("states the delete of", "", "")
  s!"table-sync compaction floor {floor} would drop the entry at lamport {pin.lamport} that " ++
    s!"still {what} `{tableName}` row {rowPk} — only superseded entries are reclaimable"

/-- Drop the chain below the floor, a stored entry above the recorded floor and above no pin. -/
def compactChainPrefix (sc : Scope) (σ : Replica) (device : DeviceFingerprint) (floor : Nat) :
    Except String (CompactionReport × Replica) :=
  let current := σ.log.retainedFloor device
  if current.any fun current => floor ≤ current then
    .error (s!"table-sync compaction floor {floor} does not advance the retained floor " ++
      s!"{current.getD 0} — a retreating compaction is a caller bug, not a no-op")
  else
    match σ.log.entries.find? fun e => e.device = device ∧ e.lamport = floor with
    | none =>
      .error (s!"table-sync compaction floor {floor} names no entry on the chain — the floor " ++
        "must be a retained entry a peer can be pointed at")
    | some floorEntry =>
      match (chainPins sc σ device (current.getD 0) floor 1).head? with
      | some pin => .error (pin.refusal floor)
      | none =>
        let kept := σ.log.dropPrefix device floor
        let swept := kept.sweepGapped device floor
        .ok (⟨σ.log.entries.length - kept.entries.length, kept.gapped.length - swept.gapped.length⟩,
          { σ with log := swept.recordFloor device floorEntry.cursor })

/-- **What a compaction does**: its floor is a stored entry above the recorded floor and no pin. -/
theorem compactChainPrefix_ok {floor : Nat} {report : CompactionReport}
    (h : compactChainPrefix sc σ device floor = .ok (report, σ')) :
    ∃ floorEntry ∈ σ.log.entries, floorEntry.device = device ∧ floorEntry.lamport = floor ∧
      (∀ f, σ.log.retainedFloors device = some f → f.lamport < floor) ∧
      chainPins sc σ device ((σ.log.retainedFloor device).getD 0) floor 1 = [] ∧
      σ' = { σ with log := { (σ.log.dropPrefix device floor).sweepGapped device floor with
        retainedFloors :=
          Function.update σ.log.retainedFloors device (some floorEntry.cursor) } } := by
  unfold compactChainPrefix at h
  simp only at h
  split at h
  · cases h
  rename_i hcurrent
  split at h
  · cases h
  rename_i floorEntry hfind
  obtain ⟨hdev, rfl⟩ : floorEntry.device = device ∧ floorEntry.lamport = floor := by
    simpa using find?_some hfind
  split at h
  · cases h
  rename_i hpins
  have habove : ∀ f, σ.log.retainedFloors device = some f → f.lamport < floorEntry.lamport := by
    intro f hf
    simpa [retainedFloor, hf] using hcurrent
  obtain ⟨-, rfl⟩ := Prod.mk.inj (Except.ok.inj h)
  refine ⟨floorEntry, mem_of_find?_eq_some hfind, hdev, rfl, habove, head?_eq_none_iff.mp hpins, ?_⟩
  exact congrArg (mk · σ.tables) (recordFloor_of_lt _ habove)

/-! ## 4. Runs -/

/-- **What is done to a replica.** -/
inductive Command where
  | receive (v : VerifiedEntry) (advertised : Option ChainCursor)
      (effectiveWriter : DeviceFingerprint → Bool)
  | author (device : DeviceFingerprint) (entryHash : EntryHash) (op : RowOp)
      (addressable : ∀ pk ∈ op.pks, PkAddressable pk)
  | compact (device : DeviceFingerprint) (floor : Nat)

/-- Fold a stored entry into the tables; `none` unless it settles. -/
def Replica.project (sc : Scope) (σ : Replica) (log : ChainLog) (e : RowEntry) :
    Option (Replica × List RowEntry) :=
  let applied := sc.applyEntry σ.tables e
  if applied.1.settled then some (⟨log, applied.2⟩, [e]) else none

/-- One command, with the entries it accepted; `none` when it fails or leaves an entry unapplied. -/
def step (sc : Scope) (σ : Replica) : Command → Option (Replica × List RowEntry)
  | .receive v advertised effectiveWriter =>
    match acceptRowEntry ⟨sc.streamId, sc.tableNames, effectiveWriter⟩ σ.log v advertised with
    | .error _ => none
    | .ok (.stored e _ _, log) => σ.project sc log e
    | .ok (.storedInert .., _) => none
    | .ok (_, log) => some ({ σ with log := log }, [])
  | .author device entryHash op addressable =>
    match authorRowEntry sc.streamId σ.log device entryHash op addressable with
    | .error _ => none
    | .ok (e, log) => σ.project sc log e
  | .compact device floor =>
    match compactChainPrefix sc σ device floor with
    | .error _ => none
    | .ok (_, σ') => some (σ', [])

/-- What a replica reaches by commands of which `ok` holds, with every entry accepted on the way. -/
inductive Reached (sc : Scope) (ok : Replica → Command → Prop) : Replica → List RowEntry → Prop where
  | start : Reached sc ok empty []
  | step {σ σ' : Replica} {es new : List RowEntry} (h : Reached sc ok σ es) (cmd : Command)
      (hok : ok σ cmd) (hs : TableSync.step sc σ cmd = some (σ', new)) : Reached sc ok σ' (es ++ new)

/-- The row entry a stored entry holds. -/
def StoredEntry.rowEntry (e : StoredEntry) : Option RowEntry :=
  match e.payload with
  | .known op addressable => some ⟨op, ⟨⟨e.lamport, e.device⟩, e.lamport_lt⟩, addressable⟩
  | .unknown | .undecodable => none

/-- The stored entries that carry rows. -/
def Replica.stored (σ : Replica) : List RowEntry := σ.log.entries.filterMap StoredEntry.rowEntry

/-! ## 5. A stream's fold is the fold of each table -/

section Fold

variable {tables : String → Store}

/-- The entries of one table. -/
def entriesOf (name : String) (es : List RowEntry) : List RowEntry :=
  es.filter fun e => e.op.table = name

theorem mem_entriesOf : e ∈ entriesOf name es ↔ e ∈ es ∧ e.op.table = name := by
  simp [entriesOf]

theorem applyEntry_other (hne : e.op.table ≠ name) :
    (sc.applyEntry tables e).2 name = tables name := by
  unfold Scope.applyEntry
  split
  · exact Function.update_of_ne hne.symm _ _
  · rfl

theorem applyEntry_self (tables : String → Store) (hn : e.op.table = name)
    (ht : sc.table? name = some t) :
    (sc.applyEntry tables e).1 =
        (applyEntry sc.sha256 t.spec t.schema sc.repoId (tables name) e).1 ∧
      (sc.applyEntry tables e).2 name =
        (applyEntry sc.sha256 t.spec t.schema sc.repoId (tables name) e).2 := by
  subst hn
  simp [Scope.applyEntry, ht]

theorem fold_cons (tables : String → Store) (e : RowEntry) (es : List RowEntry) :
    sc.fold tables (e :: es) = sc.fold (sc.applyEntry tables e).2 es := rfl

theorem fold_table (ht : sc.table? name = some t) (tables : String → Store) (es : List RowEntry) :
    sc.fold tables es name =
      applyAll sc.sha256 t.spec t.schema sc.repoId (tables name) (entriesOf name es) := by
  induction es generalizing tables with
  | nil => rfl
  | cons e es ih =>
    rw [fold_cons, ih]
    by_cases hn : e.op.table = name
    · rw [(applyEntry_self tables hn ht).2]
      simp [entriesOf, hn, applyAll]
    · rw [applyEntry_other hn]
      simp [entriesOf, hn]

theorem foldSettles_table (ht : sc.table? name = some t) (h : sc.foldSettles tables es = true) :
    quarantineFree sc.sha256 t.spec t.schema sc.repoId (tables name) (entriesOf name es) = true ∧
      ∀ e ∈ entriesOf name es, e.Admitted t.spec sc.repoId := by
  induction es generalizing tables with
  | nil => exact ⟨rfl, fun e he => by cases he⟩
  | cons e es ih =>
    simp only [Scope.foldSettles, Bool.and_eq_true] at h
    obtain ⟨hq, hadm⟩ := ih h.2
    by_cases hn : e.op.table = name
    · obtain ⟨hout, hstore⟩ := applyEntry_self tables hn ht
      rw [hout] at h
      obtain ⟨he, hnq⟩ := admitted_of_settled h.1
      have hcons : entriesOf name (e :: es) = e :: entriesOf name es := by simp [entriesOf, hn]
      rw [hcons]
      refine ⟨?_, fun e' he' => ?_⟩
      · rw [hstore] at hq
        simp [quarantineFree, hnq, hq]
      · rcases mem_cons.mp he' with rfl | hmem
        · exact he
        · exact hadm e' hmem
    · have hcons : entriesOf name (e :: es) = entriesOf name es := by simp [entriesOf, hn]
      rw [applyEntry_other hn] at hq
      rw [hcons]
      exact ⟨hq, hadm⟩

theorem fold_unknown (ht : sc.table? name = none) (h : sc.foldSettles tables es = true) :
    sc.fold tables es name = tables name := by
  induction es generalizing tables with
  | nil => rfl
  | cons e es ih =>
    simp only [Scope.foldSettles, Bool.and_eq_true] at h
    have hne : e.op.table ≠ name := by
      rintro rfl
      simp [Scope.applyEntry, ht, ApplyOutcome.settled] at h
    rw [fold_cons, ih h.2, applyEntry_other hne]

theorem foldSettles_append (tables : String → Store) (es : List RowEntry) (e : RowEntry) :
    sc.foldSettles tables (es ++ [e]) =
      (sc.foldSettles tables es && (sc.applyEntry (sc.fold tables es) e).1.settled) := by
  induction es generalizing tables with
  | nil => simp [Scope.foldSettles, Scope.fold]
  | cons e' es ih =>
    simp [Scope.foldSettles, ih, fold_cons, Bool.and_assoc]

theorem folded_table (ht : sc.table? name = some t) (h : sc.foldSettles (fun _ => empty) es = true) :
    Folded sc.sha256 t.spec t.schema ((entriesOf name es).flatMap (RowEntry.actions t.spec))
      (sc.fold (fun _ => empty) es name) := by
  obtain ⟨hq, hadm⟩ := foldSettles_table ht h
  rw [fold_table ht]
  exact folded_applyAll hadm hq

end Fold

/-! ## 6. What a step can do -/

section Step

/-- Every recorded floor is reached by a stored entry of its chain. -/
def FloorsStored (log : ChainLog) : Prop :=
  ∀ d f, log.retainedFloor d = some f → ∃ e ∈ log.entries, e.device = d ∧ f ≤ e.lamport

variable (sc σ) in
/-- **What a step can do**: nothing; accept an entry above its chain's floor, or as it; or drop a
    prefix below a stored floor that passes no pin. -/
inductive StepsTo : Replica → List RowEntry → Prop where
  | idle {σ' : Replica} (he : σ'.log.entries = σ.log.entries)
      (hf : σ'.log.retainedFloors = σ.log.retainedFloors) (ht : σ'.tables = σ.tables) :
      StepsTo σ' []
  | accepted {σ' : Replica} {e : RowEntry} {se : StoredEntry} (hse : se.rowEntry = some e)
      (he : σ'.log.entries = σ.log.entries ++ [se])
      (hf : ∀ d f, σ'.log.retainedFloor d = some f →
        σ.log.retainedFloor d = some f ∨ (d = e.clock.device ∧ f = e.clock.lamport))
      (hlow : ∀ f, σ.log.retainedFloor e.clock.device = some f → f ≤ e.clock.lamport)
      (ht : σ'.tables = (sc.applyEntry σ.tables e).2)
      (hset : (sc.applyEntry σ.tables e).1.settled = true) : StepsTo σ' [e]
  | compacted {σ' : Replica} {device : DeviceFingerprint} {floor : StoredEntry}
      (hfloor : floor ∈ σ.log.entries) (hdev : floor.device = device)
      (he : σ'.log.entries = (σ.log.dropPrefix device floor.lamport).entries)
      (hnew : σ'.log.retainedFloor device = some floor.lamport)
      (hf : ∀ d f, σ'.log.retainedFloor d = some f →
        σ.log.retainedFloor d = some f ∨ (d = device ∧ f = floor.lamport))
      (hpins : chainPins sc σ device ((σ.log.retainedFloor device).getD 0) floor.lamport 1 = [])
      (ht : σ'.tables = σ.tables) : StepsTo σ' []

theorem retainedFloor_update
    (h : (Function.update log.retainedFloors device (some floor) d).map (·.lamport) = some f) :
    log.retainedFloor d = some f ∨ (d = device ∧ f = floor.lamport) := by
  by_cases hd : d = device
  · subst hd
    rw [Function.update_self] at h
    exact .inr ⟨rfl, (Option.some.inj h).symm⟩
  · rw [Function.update_of_ne hd] at h
    exact .inl h

theorem retainedFloor_recordFloor (h : (log.recordFloor device floor).retainedFloor d = some f) :
    log.retainedFloor d = some f ∨ (d = device ∧ f = floor.lamport) := by
  unfold recordFloor at h
  split at h
  · split at h
    · exact retainedFloor_update h
    · exact .inl h
  · exact retainedFloor_update h

theorem stored_of_storeEntry {hlt : v.lamport < maxEntryLamport} {prev : Option EntryHash}
    (h : storeEntry ctx base v hlt = (.stored e hash prev, log')) :
    ∃ se : StoredEntry, se.rowEntry = some e ∧ se.toVerifiedEntry = v ∧
      log' = base.insertEntry se := by
  obtain ⟨ho, rfl⟩ := Prod.mk.inj h
  refine ⟨⟨v, (storedOutcome ctx v hlt).2, hlt⟩, ?_, rfl, rfl⟩
  clear h
  unfold storedOutcome at ho
  unfold StoredEntry.rowEntry
  split at ho
  · cases ho
  · cases ho
  rename_i op addressable hp
  simp only [hp]
  split at ho
  · obtain ⟨rfl, -, -⟩ := AcceptOutcome.stored.inj ho
    rfl
  · cases ho

theorem clock_of_rowEntry (h : se.rowEntry = some e) : e.clock = ⟨se.lamport, se.device⟩ := by
  unfold StoredEntry.rowEntry at h
  split at h
  · obtain rfl := Option.some.inj h
    rfl
  · cases h
  · cases h

theorem project_eq_some (h : σ.project sc log e = some (σ', new)) :
    new = [e] ∧ σ'.log = log ∧ σ'.tables = (sc.applyEntry σ.tables e).2 ∧
      (sc.applyEntry σ.tables e).1.settled = true := by
  unfold project at h
  simp only at h
  split at h
  · obtain ⟨rfl, rfl⟩ := Prod.mk.inj (Option.some.inj h)
    exact ⟨rfl, rfl, rfl, ‹_›⟩
  · cases h

theorem Accepts.entries {r : AcceptOutcome × ChainLog} (h : Accepts ctx log v advertised r) :
    (r.1.stores = false ∧ r.2.entries = log.entries ∧ r.2.retainedFloors = log.retainedFloors) ∨
      ∃ hv : Fresh ctx log v, ∃ base : ChainLog, r = storeEntry ctx base v hv.lt ∧
        base.entries = log.entries ∧ (base.retainedFloors = log.retainedFloors ∨
          base.retainedFloors = (log.recordFloor v.device v.cursor).retainedFloors) := by
  cases h with
  | known _ hr | below _ hr | outsider _ hr | again _ _ hr | forks _ _ hr =>
    subst hr
    exact .inl ⟨rfl, rfl, rfl⟩
  | adopts hv _ _ hr =>
    rw [recordAdoptedFloor_dropGapped] at hr
    exact .inr ⟨hv, _, hr, rfl, .inr rfl⟩
  | stores hv _ _ hr => exact .inr ⟨hv, _, hr, rfl, .inl rfl⟩
  | holds _ _ _ ho hr =>
    obtain ⟨held, hlog, -⟩ := retainGappedEntry_held (log.dropGapped v.entryHash) v
    subst hr
    exact .inl ⟨ho, by rw [hlog]; rfl, by rw [hlog]; rfl⟩

theorem receive_stepsTo {effectiveWriter : DeviceFingerprint → Bool}
    (h : step sc σ (.receive v advertised effectiveWriter) = some (σ', new)) :
    StepsTo sc σ σ' new := by
  simp only [step] at h
  split at h
  · cases h
  · rename_i e hash prev log' hacc
    obtain ⟨rfl, rfl, ht, hset⟩ := project_eq_some h
    rcases (acceptRowEntry_accepts hacc).2.entries with ⟨ho, -, -⟩ | ⟨hv, base, hs, he, hf⟩
    · cases ho
    obtain ⟨se, hse, hse', hlog⟩ := stored_of_storeEntry hs.symm
    have hclock := clock_of_rowEntry hse
    rw [hse'] at hclock
    refine .accepted hse (by rw [hlog, insertEntry_entries, he]) ?_ ?_ ht hset
    · intro d f hd
      rw [hclock]
      rw [retainedFloor, hlog, insertEntry_retainedFloors] at hd
      rcases hf with hsame | hadopt
      · rw [hsame] at hd
        exact .inl hd
      · rw [hadopt] at hd
        exact retainedFloor_recordFloor hd
    · intro f hd
      rw [hclock] at hd ⊢
      simpa [belowFloor, hd] using hv.above
  · cases h
  · rename_i o log' hno hno' hacc
    obtain ⟨rfl, rfl⟩ := Prod.mk.inj (Option.some.inj h)
    rcases (acceptRowEntry_accepts hacc).2.entries with ⟨-, he, hf⟩ | ⟨hv, base, hs, -, -⟩
    · exact .idle he hf rfl
    -- storing an entry answers `stored` or `storedInert`
    have hstores : o.stores = true := by
      rw [(Prod.mk.inj hs).1]
      exact storedOutcome_stores _ v hv.lt
    cases o with
    | stored e hash prev => exact (hno e hash prev rfl).elim
    | storedInert reason hash prev => exact (hno' reason hash prev rfl).elim
    | alreadyPresent | gapRetained | alreadyGapped | gapChainFull | fork | unauthorized =>
      cases hstores

theorem author_stepsTo (hfloors : FloorsStored σ.log) {op : RowOp}
    {addressable : ∀ pk ∈ op.pks, PkAddressable pk}
    (h : step sc σ (.author device entryHash op addressable) = some (σ', new)) :
    StepsTo sc σ σ' new := by
  simp only [step] at h
  split at h
  · cases h
  rename_i e log' hauth
  obtain ⟨rfl, rfl, ht, hset⟩ := project_eq_some h
  obtain ⟨-, hlt, rfl, hlog⟩ := authorRowEntry_ok hauth
  refine .accepted rfl (by rw [hlog, insertEntry_entries]) ?_ ?_ ht hset
  · intro d f hd
    rw [retainedFloor, hlog, insertEntry_retainedFloors] at hd
    exact .inl hd
  · -- the new lamport is past every stored one, so past the floor's
    intro f hd
    obtain ⟨floor, hmem, -, hle⟩ := hfloors device f hd
    exact hle.trans (lt_next_of_mem (mem_append_left _ (mem_map_of_mem hmem))).le

theorem compact_stepsTo {floor : Nat} (h : step sc σ (.compact device floor) = some (σ', new)) :
    StepsTo sc σ σ' new := by
  simp only [step] at h
  split at h
  · cases h
  rename_i report σ₁ hcompact
  obtain ⟨rfl, rfl⟩ := Prod.mk.inj (Option.some.inj h)
  obtain ⟨floorEntry, hmem, hdev, rfl, -, hpins, rfl⟩ := compactChainPrefix_ok hcompact
  refine .compacted hmem hdev rfl ?_ (fun _ _ hd => retainedFloor_update hd) hpins rfl
  simp [retainedFloor, VerifiedEntry.cursor]

theorem step_stepsTo (hfloors : FloorsStored σ.log) (h : step sc σ cmd = some (σ', new)) :
    StepsTo sc σ σ' new := by
  cases cmd with
  | receive v advertised effectiveWriter => exact receive_stepsTo h
  | author device entryHash op addressable => exact author_stepsTo hfloors h
  | compact device floor => exact compact_stepsTo h

theorem FloorsStored.step (hfloors : FloorsStored σ.log) (h : StepsTo sc σ σ' new) :
    FloorsStored σ'.log := by
  intro d f hd
  cases h with
  | idle he hf ht =>
    rw [retainedFloor, hf] at hd
    rw [he]
    exact hfloors d f hd
  | accepted hse he hf hlow ht hset =>
    rw [he]
    rcases hf d f hd with hold | ⟨rfl, rfl⟩
    · obtain ⟨e, hmem, hrest⟩ := hfloors d f hold
      exact ⟨e, mem_append_left _ hmem, hrest⟩
    · rw [clock_of_rowEntry hse]
      exact ⟨_, mem_append_right _ (mem_singleton.mpr rfl), rfl, le_rfl⟩
  | @compacted device floor hfloor hdev he hnew hf hpins ht =>
    rw [he]
    have hkept : ∀ e ∈ σ.log.entries, ¬ (e.device = device ∧ e.lamport < floor.lamport) →
        e ∈ (σ.log.dropPrefix device floor.lamport).entries := by
      intro e hmem hnot
      simp only [dropPrefix, mem_filter, decide_eq_true_eq]
      exact ⟨hmem, fun hdrop => hnot ⟨hdrop.1, hdrop.2.1⟩⟩
    by_cases hd' : d = device
    · subst hd'
      obtain rfl := Option.some.inj (hd.symm.trans hnew)
      exact ⟨floor, hkept floor hfloor (by simp), hdev, le_rfl⟩
    · rcases hf d f hd with hold | ⟨hdd, -⟩
      · obtain ⟨e, hmem, hed, hle⟩ := hfloors d f hold
        exact ⟨e, hkept e hmem (by rw [hed]; simp [hd']), hed, hle⟩
      · exact absurd hdd hd'

end Step

/-! ## 7. A window without pins -/

section Window

variable {start below : Nat}

theorem length_le_gatherPins (limit : Nat) (pins : List Pin) (rows : List PinRow) :
    pins.length ≤ (gatherPins limit pins rows).length := by
  induction rows generalizing pins with
  | nil => exact le_rfl
  | cons r rows ih =>
    unfold gatherPins
    split
    · rename_i pins' hext
      have hlen : pins'.length = pins.length := by
        unfold extendLast at hext
        split at hext
        · split at hext
          · obtain rfl := Option.some.inj hext
            simp
          · cases hext
        · cases hext
      rw [← hlen]
      exact ih pins'
    · split
      · exact le_rfl
      · exact (Nat.le_succ _).trans (ih (r.pin :: pins))

variable (h : chainPins sc σ device start below 1 = []) (hname : name ∈ sc.tableNames)

include h hname

theorem pinRows_eq_nil : pinRows name (σ.tables name) device start below = [] := by
  have hrows : (sc.tableNames.flatMap fun name =>
      pinRows name (σ.tables name) device start below).insertionSort (fun a b => a.le b) = [] := by
    cases hsort : (sc.tableNames.flatMap fun name =>
        pinRows name (σ.tables name) device start below).insertionSort (fun a b => a.le b) with
    | nil => rfl
    | cons r rows =>
      simp only [chainPins, hsort, reverse_eq_nil_iff] at h
      have hfirst : gatherPins 1 [] (r :: rows) = gatherPins 1 [r.pin] rows := by
        simp [gatherPins, extendLast]
      have hlen := length_le_gatherPins 1 [r.pin] rows
      rw [← hfirst, h] at hlen
      exact absurd hlen (by simp)
  have hperm := perm_insertionSort (fun a b : PinRow => a.le b = true)
    (sc.tableNames.flatMap fun name => pinRows name (σ.tables name) device start below)
  rw [hrows] at hperm
  exact flatMap_eq_nil_iff.mp hperm.symm.eq_nil name hname

theorem lamport_le_of_live (hst : st ∈ (σ.tables name).rowStatements) (hdev : st.device = device)
    (hstart : start ≤ st.lamport) {c : RowClock} (hc : (σ.tables name).rowClocks st.rowPk = some c) :
    below ≤ st.lamport := by
  by_contra hlt
  have hnil := (append_eq_nil_iff.mp (pinRows_eq_nil h hname)).1
  have hnone := filterMap_eq_nil_iff.mp hnil st hst
  simp [hdev, hstart, not_le.mp hlt, hc] at hnone

theorem lamport_le_of_dead (hst : st ∈ (σ.tables name).tombstoneStatements)
    (hdev : st.device = device) (hstart : start ≤ st.lamport)
    (hc : (σ.tables name).rowClocks st.rowPk = none) {d : RowClock}
    (hd : (σ.tables name).rowTombstones st.rowPk = some d) : below ≤ st.lamport := by
  by_contra hlt
  have hnil := (append_eq_nil_iff.mp (pinRows_eq_nil h hname)).2
  have hnone := filterMap_eq_nil_iff.mp hnil st hst
  simp [hdev, hstart, not_le.mp hlt, hc, hd] at hnone

end Window

/-! ## 8. What retention keeps -/

section Retains

/-- A stored entry at `signer`, on the table `name`, writes the row at `c`. -/
def StoredWrite (σ : Replica) (name : String) (spec : TableSpec) (signer : RowClock)
    (pk : List TypedValue) (c : RowClock) : Prop :=
  ∃ e ∈ σ.stored, e.op.table = name ∧ e.clock = signer ∧ ∃ w ∈ e.writes spec, w.1 = pk ∧ w.2.1 = c

/-- A stored entry states the delete. -/
def StoredDelete (σ : Replica) (name : String) (signer : RowClock) (pk : List TypedValue)
    (d : RowClock) : Prop :=
  ∃ e ∈ σ.stored, e.op.table = name ∧ e.clock = signer ∧ (pk, d) ∈ e.deletes

/-- The position lies at or above the floor recorded for its chain. -/
def AboveFloor (log : ChainLog) (signer : RowClock) : Prop :=
  ∀ f, log.retainedFloor signer.device = some f → f ≤ signer.lamport

/-- The invariant of a replica that keeps what its peers are owed. -/
structure Retains (sc : Scope) (σ : Replica) (es : List RowEntry) : Prop where
  tables : σ.tables = sc.fold (fun _ => empty) es
  settles : sc.foldSettles (fun _ => empty) es = true
  stored : ∀ e ∈ σ.stored, e ∈ es
  floors : FloorsStored σ.log
  carried : ∀ name t, sc.table? name = some t →
    Carried (fun signer pk c => StoredWrite σ name t.spec signer pk c ∧ AboveFloor σ.log signer)
      (fun signer pk d => StoredDelete σ name signer pk d ∧ AboveFloor σ.log signer) t.spec
      (σ.tables name)

/-- **An entry that keeps what the peers are owed**: no row it states displaces the statement of a
    live row, and no floor it becomes passes a pin. -/
structure KeptBy (sc : Scope) (σ σ' : Replica) (e : RowEntry) : Prop where
  displacesNone : ∀ t ∈ sc.table? e.op.table,
    Along sc.sha256 t.spec t.schema (fun s a => ¬ Displaces (StoredWrite σ e.op.table t.spec) s a)
      (σ.tables e.op.table) (e.actions t.spec)
  passesNoPin : ∀ f ∈ σ'.log.retainedFloor e.clock.device,
    chainPins sc σ e.clock.device ((σ.log.retainedFloor e.clock.device).getD 0) f 1 = []

/-- A command every entry accepted by which keeps what the peers are owed. -/
def Keeps (sc : Scope) (σ : Replica) (cmd : Command) : Prop :=
  ∀ σ' new, step sc σ cmd = some (σ', new) → ∀ e ∈ new, KeptBy sc σ σ' e

variable {spec : TableSpec}

theorem table?_mem (ht : sc.table? name = some t) : name ∈ sc.tableNames := by
  have hname : t.spec.name = name := by simpa using find?_some ht
  exact hname ▸ mem_map_of_mem (mem_of_find?_eq_some ht)

theorem Retains.carried_transfer (h : Retains sc σ es)
    (hstored : ∀ e ∈ σ.stored, AboveFloor σ'.log e.clock → e ∈ σ'.stored)
    (hfloor : ∀ d f, σ'.log.retainedFloor d = some f → σ.log.retainedFloor d = some f ∨
      chainPins sc σ d ((σ.log.retainedFloor d).getD 0) f 1 = [])
    (name : String) (t : Table) (ht : sc.table? name = some t) :
    Carried (fun signer pk c => StoredWrite σ' name t.spec signer pk c ∧ AboveFloor σ'.log signer)
      (fun signer pk d => StoredDelete σ' name signer pk d ∧ AboveFloor σ'.log signer) t.spec
      (σ.tables name) := by
  have hstart : ∀ st : Statement, AboveFloor σ.log st.signer →
      (σ.log.retainedFloor st.device).getD 0 ≤ st.lamport := by
    intro st habove
    cases hf : σ.log.retainedFloor st.device with
    | none => exact Nat.zero_le _
    | some f => exact habove f hf
  have hmove : ∀ st : Statement, AboveFloor σ.log st.signer → (∀ f,
      chainPins sc σ st.device ((σ.log.retainedFloor st.device).getD 0) f 1 = [] → f ≤ st.lamport) →
      AboveFloor σ'.log st.signer := fun st habove hpinned f hf =>
    (hfloor _ f hf).elim (habove f) (hpinned f)
  refine (h.carried name t ht).mono ?_ ?_
  · intro st hst pk c hc hW
    obtain ⟨⟨e, he, hen, hclock, hk⟩, habove⟩ := hW
    have habove' := hmove st habove fun f hpins =>
      lamport_le_of_live hpins (table?_mem ht) hst rfl (hstart st habove) hc
    exact ⟨⟨e, hstored e he (hclock ▸ habove'), hen, hclock, hk⟩, habove'⟩
  · intro st hst pk d hc hd hD
    obtain ⟨⟨e, he, hen, hclock, hk⟩, habove⟩ := hD
    have habove' := hmove st habove fun f hpins =>
      lamport_le_of_dead hpins (table?_mem ht) hst rfl (hstart st habove) hc hd
    exact ⟨⟨e, hstored e he (hclock ▸ habove'), hen, hclock, hk⟩, habove'⟩

theorem retains_empty : Retains sc Replica.empty [] where
  tables := rfl
  settles := rfl
  stored _ he := he
  floors _ _ h := by cases h
  carried _ _ _ := ⟨fun _ _ _ h => (by cases h), fun _ _ _ _ h => (by cases h)⟩

theorem statedBy_of_mem_actions {W D : RowClock → List TypedValue → RowClock → Prop}
    (ha : a ∈ e.actions spec) (hW : ∀ pk c k, (pk, c, k) ∈ e.writes spec → W e.clock pk c)
    (hD : ∀ pk d, (pk, d) ∈ e.deletes → D e.clock pk d) : a.StatedBy W D := by
  simp only [RowEntry.actions, mem_append, mem_map] at ha
  rcases ha with ⟨⟨pk, c, k⟩, hw, rfl⟩ | ⟨⟨pk, d⟩, hd, rfl⟩
  · exact hW pk c k hw
  · exact hD pk d hd

theorem displaces_of_stored {s : Store} (hstored : σ'.stored = σ.stored ++ [e])
    (ha : a ∈ e.actions spec)
    (h : Displaces (fun signer pk c => StoredWrite σ' name spec signer pk c ∧
      AboveFloor σ'.log signer) s a) : Displaces (StoredWrite σ name spec) s a := by
  simp only [RowEntry.actions, mem_append, mem_map] at ha
  rcases ha with ⟨⟨pk, c, k⟩, hw, rfl⟩ | ⟨⟨pk, d⟩, hd, rfl⟩
  · obtain ⟨live, hlive, hlt, hdev, st, hst, hkey, hsd, hne, ⟨e', he', hen, hclock, hk⟩, -⟩ := h
    refine ⟨live, hlive, hlt, hdev, st, hst, hkey, hsd, hne, e', ?_, hen, hclock, hk⟩
    rw [hstored, mem_append, mem_singleton] at he'
    rcases he' with hold | rfl
    · exact hold
    · exact absurd hclock.symm hne
  · exact h

theorem Retains.accept (h : Retains sc σ es) (hto : StepsTo sc σ σ' [e])
    (hkeep : KeptBy sc σ σ' e) : Retains sc σ' (es ++ [e]) := by
  have hfloors := h.floors.step hto
  obtain _ | ⟨hse, he, hf, hlow, ht, hset⟩ | _ := hto
  have hstored : σ'.stored = σ.stored ++ [e] := by simp [Replica.stored, he, hse]
  have hmem : e ∈ σ'.stored := by simp [hstored]
  have habove : AboveFloor σ'.log e.clock := by
    intro f hfl
    rcases hf _ f hfl with hold | ⟨-, rfl⟩
    · exact hlow f hold
    · exact le_rfl
  have hsub : ∀ e' ∈ σ.stored, AboveFloor σ'.log e'.clock → e' ∈ σ'.stored := by
    intro e' he' _
    rw [hstored]
    exact mem_append_left _ he'
  have hkept := h.carried_transfer hsub fun d f hfl => by
    rcases hf d f hfl with hold | ⟨rfl, -⟩
    · exact .inl hold
    · exact .inr (hkeep.passesNoPin f hfl)
  refine ⟨?_, ?_, ?_, hfloors, ?_⟩
  · rw [ht, h.tables]
    simp [Scope.fold]
  · rw [foldSettles_append, h.settles, ← h.tables, hset]
    rfl
  · intro e' he'
    rw [hstored, mem_append] at he'
    rcases he' with hold | hnew
    · exact mem_append_left _ (h.stored e' hold)
    · exact mem_append_right _ hnew
  · intro name t ht'
    by_cases hn : e.op.table = name
    · subst hn
      obtain ⟨hout, hstore⟩ := applyEntry_self σ.tables rfl ht'
      rw [hout] at hset
      obtain ⟨hadm, hnq⟩ := admitted_of_settled hset
      obtain ⟨hrun, hpass⟩ := applyEntry_eq sc.sha256 t.schema (σ.tables e.op.table) hadm
      rw [ht, hstore, hrun]
      have hfold := folded_table ht' h.settles
      rw [← h.tables] at hfold
      refine carried_run hfold (fun a ha => fits_of_admitted hadm ha) (hpass hnq)
        (fun a ha => statedBy_of_mem_actions ha ?_ ?_) ?_ (hkept _ t ht')
      · intro pk c k hw
        exact ⟨⟨e, hmem, rfl, rfl, (pk, c, k), hw, rfl, rfl⟩, habove⟩
      · intro pk d hd
        exact ⟨⟨e, hmem, rfl, rfl, hd⟩, habove⟩
      · exact (hkeep.displacesNone t ht').imp fun s a ha hno hdis =>
          hno (displaces_of_stored hstored ha hdis)
    · rw [ht, applyEntry_other hn]
      exact hkept name t ht'

theorem Retains.quiet (h : Retains sc σ es) (hto : StepsTo sc σ σ' []) : Retains sc σ' es := by
  have hfloors := h.floors.step hto
  cases hto with
  | idle he hf ht =>
    have hstored : σ'.stored = σ.stored := by rw [Replica.stored, he]; rfl
    have hfl : σ'.log.retainedFloor = σ.log.retainedFloor := by
      funext d
      rw [retainedFloor, hf]
      rfl
    refine ⟨ht.trans h.tables, h.settles, by rw [hstored]; exact h.stored, hfloors, ?_⟩
    rw [ht]
    exact h.carried_transfer (fun e he' _ => hstored ▸ he') fun d f hd => .inl (hfl ▸ hd)
  | @compacted device floor hfloor hdev he hnew hf hpins ht =>
    have hsub : ∀ e ∈ σ.stored, AboveFloor σ'.log e.clock → e ∈ σ'.stored := by
      intro e hmem habove
      obtain ⟨se, hse, hrow⟩ := mem_filterMap.mp hmem
      refine mem_filterMap.mpr ⟨se, ?_, hrow⟩
      rw [he]
      simp only [dropPrefix, mem_filter, decide_eq_true_eq]
      refine ⟨hse, fun hdrop => ?_⟩
      have hle : floor.lamport ≤ e.clock.lamport := by
        refine habove floor.lamport ?_
        rw [clock_of_rowEntry hrow, show (⟨se.lamport, se.device⟩ : RowClock).device = device from
          hdrop.1]
        exact hnew
      rw [clock_of_rowEntry hrow] at hle
      exact absurd hdrop.2.1 (not_lt.mpr hle)
    refine ⟨ht.trans h.tables, h.settles, fun e hmem => ?_, hfloors, ?_⟩
    · obtain ⟨se, hse, hrow⟩ := mem_filterMap.mp hmem
      rw [he] at hse
      exact h.stored e (mem_filterMap.mpr ⟨se, mem_of_mem_filter hse, hrow⟩)
    · rw [ht]
      refine h.carried_transfer hsub fun d f hfl => ?_
      rcases hf d f hfl with hold | ⟨rfl, rfl⟩
      · exact .inl hold
      · exact .inr hpins

theorem Retains.step (h : Retains sc σ es) (hok : Keeps sc σ cmd)
    (hs : TableSync.step sc σ cmd = some (σ', new)) : Retains sc σ' (es ++ new) := by
  have hto := step_stepsTo h.floors hs
  rcases new with _ | ⟨e, _ | ⟨e', rest⟩⟩
  · rw [append_nil]
    exact h.quiet hto
  · exact h.accept hto (hok σ' _ hs e (mem_singleton.mpr rfl))
  · cases hto

theorem Reached.retains (h : Reached sc (Keeps sc) σ es) : Retains sc σ es := by
  induction h with
  | start => exact retains_empty
  | step _ cmd hok hs ih => exact ih.step hok hs

theorem Retains.live_eq (h : Retains sc σ es) (ht : sc.table? name = some t)
    (hagree : WritesAgree t.spec (entriesOf name es)) (hlow : ∀ e ∈ σ.stored, e ∈ xs)
    (hup : ∀ e ∈ xs, e ∈ es) {pk : List TypedValue} (hpk : RowName t.spec pk) :
    (Lib.Lww.Cell.run (eventsAt pk ((entriesOf name xs).flatMap (RowEntry.actions t.spec)))).live =
      (Lib.Lww.Cell.run (eventsAt pk
        ((entriesOf name es).flatMap (RowEntry.actions t.spec)))).live := by
  have hfold := folded_table ht h.settles
  rw [← h.tables] at hfold
  have hcell := hfold.agrees pk hpk
  have hcar := h.carried name t ht
  have hset := Lib.Lww.run_settled
    (eventsAt pk ((entriesOf name es).flatMap (RowEntry.actions t.spec)))
  refine Lib.Lww.run_live_of_carried (consistent_of_writesAgree hagree pk) ?_ ?_ ?_
  · intro ev hev
    obtain ⟨e, he, hstates⟩ := mem_statements.mp hev
    obtain ⟨he, hn⟩ := mem_entriesOf.mp he
    exact mem_statements.mpr ⟨e, mem_entriesOf.mpr ⟨hup e he, hn⟩, hstates⟩
  · intro c k hl
    have hc : (σ.tables name).rowClocks (rowPkString pk) = some c := by rw [hcell.clock, hl]; rfl
    obtain ⟨st, -, -, ⟨e, he, hen, -, ⟨pk', c', k'⟩, hw, rfl, rfl⟩, -⟩ := hcar.live pk hpk c hc
    exact ⟨k', write_mem_statements.mpr ⟨e, mem_entriesOf.mpr ⟨hlow e he, hen⟩, hw⟩⟩
  · intro hl d hd
    have hc : (σ.tables name).rowClocks (rowPkString pk) = none := by rw [hcell.clock, hl]; rfl
    have htomb : (σ.tables name).rowTombstones (rowPkString pk) = some d := by
      apply toBot_injective
      rw [hcell.tomb, hset.tomb]
      exact hd
    obtain ⟨st, -, -, ⟨e, he, hen, -, hdel⟩, -⟩ := hcar.dead pk hpk hc d htomb
    exact delete_mem_statements.mpr ⟨e, mem_entriesOf.mpr ⟨hlow e he, hen⟩, hdel⟩

/-- **Retention keeps merge state.** In every run of commands that displace no live row's statement
    and adopt no floor past a pin, a peer that folds any entries between the stored ones and all
    that were ever accepted ends with the live rows of a peer that folds them all. -/
theorem retention_keeps_live_rows (sc : Scope) (σ : Replica) (es : List RowEntry)
    (hrun : Reached sc (Keeps sc) σ es)
    (hagree : ∀ name t, sc.table? name = some t → WritesAgree t.spec (entriesOf name es))
    (xs ys : List RowEntry) (hlow : ∀ e ∈ σ.stored, e ∈ xs) (hup : ∀ e ∈ xs, e ∈ es)
    (hys : ∀ e, e ∈ ys ↔ e ∈ es) (hx : sc.foldSettles (fun _ => empty) xs = true)
    (hy : sc.foldSettles (fun _ => empty) ys = true) (name : String) :
    let x := sc.fold (fun _ => empty) xs name
    let y := sc.fold (fun _ => empty) ys name
    x.rows = y.rows ∧ x.rowClocks = y.rowClocks ∧ x.publishedRows = y.publishedRows := by
  have h := hrun.retains
  cases ht : sc.table? name with
  | none =>
    simp [fold_unknown ht hx, fold_unknown ht hy]
  | some t =>
    refine (folded_table ht hy).ext_live (folded_table ht hx) fun pk hpk => ?_
    rw [h.live_eq ht (hagree name t ht) hlow hup hpk]
    -- the fold of every accepted entry does not depend on their order
    refine congrArg Lib.Lww.Cell.live (Lib.Lww.run_eq_of_mem_iff ?_ fun ev => ?_)
    · refine consistent_of_writesAgree (fun e he e' he' => ?_) pk
      rw [mem_entriesOf, hys, ← mem_entriesOf] at he he'
      exact hagree name t ht e he e' he'
    · exact mem_statements_iff (fun e => by rw [mem_entriesOf, mem_entriesOf, hys]) pk ev

end Retains

/-! ## 9. Runs of commands -/

/-- Issue the commands in order, from the empty store, each step checked. -/
def runCommands (sc : Scope) (check : Replica → Replica → List RowEntry → Bool) (σ : Replica)
    (es : List RowEntry) : List Command → Option (Replica × List RowEntry)
  | [] => some (σ, es)
  | cmd :: cmds =>
    match step sc σ cmd with
    | some (σ', new) => if check σ σ' new then runCommands sc check σ' (es ++ new) cmds else none
    | none => none

theorem Reached.runCommands {ok : Replica → Command → Prop}
    {check : Replica → Replica → List RowEntry → Bool}
    (hcheck : ∀ σ cmd σ' new, TableSync.step sc σ cmd = some (σ', new) → check σ σ' new = true →
      ok σ cmd) (h : Reached sc ok σ es)
    (hrun : TableSync.runCommands sc check σ es cmds = some (τ, fs)) : Reached sc ok τ fs := by
  induction cmds generalizing σ es with
  | nil =>
    obtain ⟨rfl, rfl⟩ := Prod.mk.inj (Option.some.inj hrun)
    exact h
  | cons cmd cmds ih =>
    unfold TableSync.runCommands at hrun
    split at hrun
    · rename_i σ' new hstep
      split at hrun
      · rename_i hc
        exact ih (h.step cmd (hcheck σ cmd σ' new hstep hc) hstep) hrun
      · cases hrun
    · cases hrun

instance (σ : Replica) (name : String) (spec : TableSpec) (signer : RowClock)
    (pk : List TypedValue) (c : RowClock) : Decidable (StoredWrite σ name spec signer pk c) :=
  inferInstanceAs (Decidable (∃ e ∈ σ.stored, _ ∧ _ ∧ ∃ w ∈ _, _ ∧ _))

instance (σ σ' : Replica) (e : RowEntry) : Decidable (KeptBy sc σ σ' e) :=
  decidable_of_iff
    ((∀ t ∈ sc.table? e.op.table, Along sc.sha256 t.spec t.schema
        (fun s a => ¬ Displaces (StoredWrite σ e.op.table t.spec) s a)
        (σ.tables e.op.table) (e.actions t.spec)) ∧
      ∀ f ∈ σ'.log.retainedFloor e.clock.device,
        chainPins sc σ e.clock.device ((σ.log.retainedFloor e.clock.device).getD 0) f 1 = [])
    ⟨fun h => ⟨h.1, h.2⟩, fun h => ⟨h.1, h.2⟩⟩

theorem keeps_of_step (hs : step sc σ cmd = some (σ', new)) (h : ∀ e ∈ new, KeptBy sc σ σ' e) :
    Keeps sc σ cmd := by
  intro σ₁ new₁ hs₁
  obtain ⟨rfl, rfl⟩ := Prod.mk.inj (Option.some.inj (hs.symm.trans hs₁))
  exact h

/-- The stream of the note summaries. -/
def noteScope : Scope := ⟨fun _ => 0, [⟨memoryNoteSummaries, unconstrained⟩], "repo", 0⟩

/-- Another row. -/
def otherPk : List TypedValue := [.text "repo", .text "other"]

theorem otherPk_addressable : ∀ pk ∈ [otherPk], PkAddressable pk := by decide

/-- The device 7 upserts a summary. -/
def noteUpsert (hash : EntryHash) (lamport : Nat) (prev : Option EntryHash) (summary : String) :
    VerifiedEntry :=
  ⟨hash, 0, 7, lamport, prev,
    .known (.upsert "memory_note_summaries" 1 summaryPk (summaryCells summary)) summaryPk_addressable⟩

/-- A write of it. -/
def otherUpsert (hash : EntryHash) (lamport : Nat) (prev : Option EntryHash) : VerifiedEntry :=
  ⟨hash, 0, 7, lamport, prev,
    .known (.upsert "memory_note_summaries" 1 otherPk (summaryCells "")) otherPk_addressable⟩

/-- The device 7 restates a write of its own. -/
def noteRestate (hash : EntryHash) (lamport : Nat) (prev : Option EntryHash) (stated : Nat)
    (summary : String) : VerifiedEntry :=
  ⟨hash, 0, 7, lamport, prev,
    .known (.restateRows "memory_note_summaries" 1 [⟨summaryPk, 7, stated, summaryCells summary⟩])
      summaryPk_addressable⟩

/-- The summary a fold of the entries holds. -/
def foldedSummary (es : List RowEntry) : Option SqlValue :=
  ((noteScope.fold (fun _ => empty) es "memory_note_summaries").rows (pkParams summaryPk)).map
    (· "summary")

/-- The stored entries fold to another summary than all that were accepted. -/
def LosesSummary (cmds : List Command) : Prop :=
  ∃ σ es, runCommands noteScope (fun _ _ _ => true) empty [] cmds = some (σ, es) ∧
    Reached noteScope (fun _ _ => True) σ es ∧
    noteScope.foldSettles (fun _ => empty) σ.stored = true ∧
    noteScope.foldSettles (fun _ => empty) es = true ∧
    foldedSummary σ.stored ≠ foldedSummary es

/-- The stored entries no longer fold to the summary. -/
def losesSummary (cmds : List Command) : Bool :=
  match runCommands noteScope (fun _ _ _ => true) empty [] cmds with
  | some (σ, es) =>
    noteScope.foldSettles (fun _ => empty) σ.stored &&
      noteScope.foldSettles (fun _ => empty) es &&
      foldedSummary σ.stored != foldedSummary es
  | none => false

theorem losesSummary_sound (h : losesSummary cmds = true) : LosesSummary cmds := by
  unfold losesSummary at h
  split at h
  · rename_i σ es hrun
    simp only [Bool.and_eq_true, bne_iff_ne, ne_eq] at h
    have hreach : Reached noteScope (fun _ _ => True) σ es :=
      Reached.start.runCommands (fun _ _ _ _ _ _ => trivial) hrun
    exact ⟨σ, es, hrun, hreach, h.1.1, h.1.2, h.2⟩
  · cases h

/-- Written at 10, and an older write restated at 20: the chain's statement moves to an entry that
    does not carry the live write. -/
def displacingRun : List Command :=
  [.receive (noteUpsert 1 10 none "new") none fun _ => true,
    .receive (noteRestate 2 20 (some 1) 5 "old") none fun _ => true,
    .compact 7 20]

/-- Re-rooted at 20 over the live summary of 10, which the next compaction drops. -/
def adoptingRun : List Command :=
  [.receive (noteUpsert 1 10 none "new") none fun _ => true,
    .receive (otherUpsert 2 20 (some 9)) (some ⟨20, 2⟩) fun _ => true,
    .receive (otherUpsert 3 30 (some 2)) none fun _ => true,
    .compact 7 30]

/-- **Retention can lose a live row**: by a displaced statement, or by a floor adopted past a pin. -/
theorem retention_loses_live_rows : LosesSummary displacingRun ∧ LosesSummary adoptingRun := by
  constructor
  · exact losesSummary_sound (by decide +kernel)
  · exact losesSummary_sound (by decide +kernel)

/-- A summary written twice and compacted: the dropped entry is superseded. -/
def supersedingRun : List Command :=
  [.receive (noteUpsert 1 10 none "first") none fun _ => true,
    .receive (noteUpsert 2 20 (some 1) "second") none fun _ => true,
    .compact 7 20]

/-- Every new entry keeps what the peers are owed. -/
def keepingCheck (σ σ' : Replica) (new : List RowEntry) : Bool :=
  new.all fun e => KeptBy noteScope σ σ' e

/-- What the run reaches, and that it dropped an entry. -/
def supersedingEnd : Option (Replica × List RowEntry) :=
  runCommands noteScope keepingCheck empty [] supersedingRun

theorem supersedingEnd_isSome : supersedingEnd.isSome = true := by decide +kernel

/-- A fresh peer of the compacted chain ends with the rows of all accepted entries. -/
theorem retention_keeps_live_rows_superseding :
    let reached := supersedingEnd.get supersedingEnd_isSome
    let table := "memory_note_summaries"
    reached.1.stored.length < reached.2.length ∧
      (noteScope.fold (fun _ => Store.empty) reached.1.stored table).rows =
        (noteScope.fold (fun _ => Store.empty) reached.2 table).rows := by
  have hrun : supersedingEnd = some (supersedingEnd.get supersedingEnd_isSome) :=
    (Option.some_get _).symm
  have hreach : Reached noteScope (Keeps noteScope) _ _ := Reached.start.runCommands
    (fun _ _ _ _ hs hc => keeps_of_step hs (by simpa [keepingCheck] using hc)) hrun
  refine ⟨by decide +kernel, (retention_keeps_live_rows noteScope _ _ hreach ?_ _ _
    (fun e he => he) ?_ (fun e => Iff.rfl) (by decide +kernel) (by decide +kernel) _).1⟩
  · intro name t ht
    obtain rfl : t = ⟨memoryNoteSummaries, unconstrained⟩ :=
      mem_singleton.mp (mem_of_find?_eq_some ht)
    obtain rfl : memoryNoteSummaries.name = name := by simpa using find?_some ht
    decide +kernel
  · exact hreach.retains.stored

end RagRat.TableSync
