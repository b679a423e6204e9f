/-
  File:      RagRat/TableSync/Apply.lean
  Subject:   Folding one row op into its table under whole-row last-writer-wins (`apply.rs`).

  The store is the slice of the database one `(stream, repo, table)` addresses: the physical rows
  by their key's SQL values, and the four bookkeeping tables by `row_pk`. A lamport the store
  writes is an entry's, below `MAX_ENTRY_LAMPORT`, or one stated below an entry's, so the
  conversion to SQLite's `i64` never fails (`EntryMeta`).

  * `settleDelete`, `settleRow` -- the one delete decision and the one write decision;
  * `applyRowOpOnStream` -- the four ops, each a sequence of those decisions;
  * `Schema` -- what the physical table adds to its spec: the defaults of the columns an insert
    leaves out, and the constraints. A violation quarantines the entry and leaves its row.
-/
import Mathlib.Logic.Function.Basic
import RagRat.TableSync.Registry

namespace RagRat.TableSync

open Lib.Cbor (Bytes)

/-! ## 1. Clocks -/

/-- The identity a write or a delete competes under. -/
structure RowClock where
  lamport : Nat
  device : DeviceFingerprint
  deriving DecidableEq

/-- The one comparison: a higher lamport, or the same one and the smaller fingerprint. -/
def RowClock.beats (a b : RowClock) : Bool :=
  b.lamport < a.lamport ∨ (a.lamport = b.lamport ∧ a.device < b.device)

/-- What every lamport is below. -/
def maxEntryLamport : Nat := 2 ^ 62

/-- The metadata of a stored entry: its lamport is below the ceiling. -/
structure EntryMeta extends OpMeta where
  lamport_lt : lamport < maxEntryLamport
  deriving DecidableEq

/-- The clock of an entry. -/
def EntryMeta.clock (m : EntryMeta) : RowClock := ⟨m.lamport, m.device⟩

/-! ## 2. The physical table -/

/-- A value as the table holds it. -/
inductive SqlValue where
  | null
  | integer (n : Int64)
  | text (s : String)
  | blob (bs : Bytes)
  deriving DecidableEq

/-- A typed value as the table holds it. -/
def sqlValue : TypedValue → SqlValue
  | .null => .null
  | .bool b => .integer (if b then 1 else 0)
  | .i64 n => .integer n
  | .text s => .text s
  | .blob bs => .blob bs

/-- A key as the table holds it. -/
def pkParams (pkVals : List TypedValue) : List SqlValue := pkVals.map sqlValue

/-- A row: the value of every physical column. -/
abbrev PhysicalRow := String → SqlValue

/-- What the physical table adds to its spec. -/
structure Schema (spec : TableSpec) where
  /-- the value of a column an insert leaves out -/
  columnDefault : String → SqlValue
  /-- writing this row under this key violates a constraint -/
  writeViolates : (List SqlValue → Option PhysicalRow) → List SqlValue → PhysicalRow → Bool
  /-- deleting the row under this key violates a constraint -/
  deleteViolates : (List SqlValue → Option PhysicalRow) → List SqlValue → Bool
  /-- the columns an upsert resets are local, nullable and declared without a DEFAULT -/
  resetLocal : ∀ c ∈ resetOnUpsert spec, c ∈ spec.localColumns
  resetDefault : ∀ c ∈ resetOnUpsert spec, columnDefault c = .null

/-- The rows a reset leaves alone: a call-path binding's resolution is the key of local rows. -/
def resetOnUpsertKeeps (spec : TableSpec) (row : PhysicalRow) : Bool :=
  spec.name = "repo_memory_bindings" ∧ row "binding_kind" = .text "call_path"

/-- Cells as the table holds them. -/
def knownSql (known : Known) : List (String × SqlValue) := known.map fun nv => (nv.1, sqlValue nv.2)

/-- The row an insert writes: the key, the synced columns, the defaults. -/
def insertRow (spec : TableSpec) (schema : Schema spec) (pkVals : List TypedValue) (known : Known) :
    PhysicalRow := fun c =>
  match ((spec.pk.map (·.name)).zip (pkParams pkVals)).lookup c with
  | some v => v
  | none =>
    match (knownSql known).lookup c with
    | some v => v
    | none => schema.columnDefault c

/-- The row an update leaves: the synced columns replaced, the reset ones nulled. -/
def updateRow (spec : TableSpec) (known : Known) (reset : List String) (row : PhysicalRow) :
    PhysicalRow := fun c =>
  match (knownSql known).lookup c with
  | some v => v
  | none => if c ∈ reset ∧ !resetOnUpsertKeeps spec row then .null else row c

/-! ## 3. Reading a row back -/

/-- A cell read back. -/
inductive ReadCell where
  | value (v : TypedValue)
  | malformed (why : String)
  deriving DecidableEq

/-- The type as an error names it. -/
def ValueType.debug : ValueType → String
  | .text => "Text"
  | .i64 => "I64"
  | .bool => "Bool"
  | .blob => "Blob"

/-- The type of a stored value, as an error names it. -/
def SqlValue.dataType : SqlValue → String
  | .null => "Null"
  | .integer _ => "Integer"
  | .text _ => "Text"
  | .blob _ => "Blob"

/-- A stored value read as a column's type. -/
def readTyped : ValueType → SqlValue → ReadCell
  | _, .null => .value .null
  | .text, .text s => .value (.text s)
  | .i64, .integer n => .value (.i64 n)
  | .blob, .blob bs => .value (.blob bs)
  | .bool, .integer n =>
    if n = 0 then .value (.bool false)
    else if n = 1 then .value (.bool true)
    else .malformed s!"a Bool column holds {n}, not 0 or 1"
  | declared, other =>
    .malformed s!"a {declared.debug} column holds {other.dataType} storage"

/-- A row read back. -/
inductive SyncedRow where
  | absent
  | unreadable (why : String)
  | cells (cells : List Cell)
  deriving DecidableEq

/-- The synced columns of a row; the first that fails is named. -/
def readColumns (row : PhysicalRow) : List ColumnSpec → SyncedRow
  | [] => .cells []
  | column :: columns =>
    match readTyped column.valueType (row column.name) with
    | .malformed why => .unreadable s!"`{column.name}`: {why}"
    | .value v =>
      match readColumns row columns with
      | .cells cells => .cells (⟨column.name, v⟩ :: cells)
      | other => other

/-! ## 4. The store -/

/-- One line of a statement table: the chain of `device` carries the row, newest at `lamport`. -/
structure Statement where
  rowPk : String
  device : DeviceFingerprint
  lamport : Nat
  deriving DecidableEq

/-- **One table**: its rows, their clocks and tombstones, and who stated them. -/
structure Store where
  rows : List SqlValue → Option PhysicalRow
  rowClocks : String → Option RowClock
  rowTombstones : String → Option RowClock
  rowStatements : List Statement
  tombstoneStatements : List Statement
  publishedRows : String → Option (String × Nat)

/-- A table with nothing in it. -/
def Store.empty : Store where
  rows _ := none
  rowClocks _ := none
  rowTombstones _ := none
  rowStatements := []
  tombstoneStatements := []
  publishedRows _ := none

/-- Raise the clock under `key` to `incoming` if that beats it; the answer says whether it moved. -/
def raiseClock (clocks : String → Option RowClock) (key : String) (incoming : RowClock) :
    Bool × (String → Option RowClock) :=
  match clocks key with
  | some stored =>
    if incoming.beats stored then (true, Function.update clocks key (some incoming))
    else (false, clocks)
  | none => (true, Function.update clocks key (some incoming))

/-- Record that the signer's chain states the row, never lowering it; the answer says whether it
    moved. -/
def advanceStatement (ss : List Statement) (key : String) (signer : RowClock) :
    Bool × List Statement :=
  match ss.find? fun s => s.rowPk = key ∧ s.device = signer.device with
  | some s =>
    if s.lamport < signer.lamport then
      (true, ss.map fun t =>
        if t.rowPk = key ∧ t.device = signer.device then { t with lamport := signer.lamport } else t)
    else (false, ss)
  | none => (true, ss ++ [⟨key, signer.device, signer.lamport⟩])

/-- Without the row's statements. -/
def clearStatements (ss : List Statement) (key : String) : List Statement :=
  ss.filter fun s => s.rowPk ≠ key

namespace Store

section

variable (s : Store) (key : String)

/-- `signer` states the row. -/
def stateRow (signer : RowClock) : Bool × Store :=
  let moved := advanceStatement s.rowStatements key signer
  (moved.1, { s with rowStatements := moved.2 })

/-- A newer clock, which its signer alone states. -/
def raiseRowClock (identity signer : RowClock) : Store :=
  let raised := raiseClock s.rowClocks key identity
  if raised.1 then
    ({ s with rowClocks := raised.2,
              rowStatements := clearStatements s.rowStatements key }.stateRow key signer).2
  else s

/-- No clock, no statements. -/
def clearRowClock : Store :=
  { s with rowClocks := Function.update s.rowClocks key none,
           rowStatements := clearStatements s.rowStatements key }

/-- No published hash. -/
def clearPublished : Store :=
  { s with publishedRows := Function.update s.publishedRows key none }

end

/-- The hash a row was published with. -/
def recordPublished (s : Store) (key hash : String) (specVersion : Nat) : Store :=
  { s with publishedRows := Function.update s.publishedRows key (some (hash, specVersion)) }

/-- A delete newer than the row's tombstone, or its first. -/
def outranksTombstone (s : Store) (key : String) (identity : RowClock) : Bool :=
  match s.rowTombstones key with
  | some stored => identity.beats stored
  | none => true

/-- Raise the tombstone to `identity` if it beats it, with its statements dropped, and record
    `signer`'s statement if it is current. -/
def raiseTombstone (s : Store) (key : String) (identity signer : RowClock) : Bool × Store :=
  let isCurrent := s.rowTombstones key = some identity
  if s.outranksTombstone key identity then
    let statements :=
      advanceStatement (clearStatements s.tombstoneStatements key) key signer
    (true, { s with rowTombstones := (raiseClock s.rowTombstones key identity).2,
                    tombstoneStatements := statements.2 })
  else if isCurrent then
    let statements := advanceStatement s.tombstoneStatements key signer
    (statements.1, { s with tombstoneStatements := statements.2 })
  else (false, s)

end Store

/-! ## 5. The two decisions -/

section

variable (s : Store) (key : String) (identity : RowClock)

/-- The row's clock is strictly newer than a delete. -/
def Store.survives : Bool :=
  match s.rowClocks key with
  | some stored => stored.beats identity
  | none => false

/-- The row is deleted at a clock this write cannot beat. -/
def Store.suppresses : Bool :=
  match s.rowTombstones key with
  | some stored => !identity.beats stored
  | none => false

/-- The row's clock, where a write does not beat it. -/
def Store.unbeaten : Option RowClock :=
  match s.rowClocks key with
  | some stored => if identity.beats stored then none else some stored
  | none => none

end

/-- What one delete did to its row. -/
inductive RowFate where
  | won (deleted : Bool)
  | kept
  | quarantined (why : String)
  deriving DecidableEq

/-- What a delete did to the row and to its merge state. -/
structure DeleteEffect where
  row : RowFate
  mergeChanged : Bool
  deriving DecidableEq

/-- What one write did to its row. -/
inductive RowSettle where
  | won
  | held (carried : Bool)
  | quarantined (why : String)
  deriving DecidableEq

/-- One write: its row, its after-image, its identity and the entry that carries it. -/
structure RowWrite where
  pkVals : List TypedValue
  known : Known
  identity : RowClock
  signer : RowClock
  deriving DecidableEq

section Settle

variable (sha256 : Bytes → Bytes32) (spec : TableSpec) (schema : Schema spec)

section

variable (s : Store) (pkVals : List TypedValue)

/-- The delete wins unless the row's clock is strictly newer; the tombstone is raised unless the
    physical delete fails. -/
def settleDelete (identity signer : RowClock) :
    DeleteEffect × Store :=
  let key := rowPkString pkVals
  if s.survives key identity then
    let raised := s.raiseTombstone key identity signer
    (⟨.kept, raised.1⟩, raised.2)
  else if schema.deleteViolates s.rows (pkParams pkVals) then
    (⟨.quarantined s!"remove violates a column constraint on `{spec.name}`", false⟩, s)
  else
    let deleted := (s.rows (pkParams pkVals)).isSome
    let s' := { s with rows := Function.update s.rows (pkParams pkVals) none }
    let raised := ((s'.clearRowClock key).clearPublished key).raiseTombstone key identity signer
    (⟨.won deleted, raised.1⟩, raised.2)

/-- The row as it is synced. -/
def readSyncedCells : SyncedRow :=
  match s.rows (pkParams pkVals) with
  | none => .absent
  | some row => readColumns row spec.columns

/-- Its hash, if it can be read. -/
def syncedRowHash : Option String :=
  match readSyncedCells spec s pkVals with
  | .cells cells => some (cellsHash sha256 cells)
  | .absent | .unreadable _ => none

end

/-- The cells of an after-image. -/
def knownCells (known : Known) : List Cell := known.map fun nv => ⟨nv.1, nv.2⟩

/-- A changed row loses this store's resolution, a row restated as it stands keeps it. -/
def writtenRow (s : Store) (pkVals : List TypedValue) (known : Known) : PhysicalRow :=
  match s.rows (pkParams pkVals) with
  | some row =>
    let reset := resetOnUpsert spec
    let restated := reset ≠ [] ∧ readSyncedCells spec s pkVals = .cells (knownCells known)
    updateRow spec known (if restated then [] else reset) row
  | none => insertRow spec schema pkVals known

/-- The write wins iff it beats the tombstone and the clock. One that loses still makes its signer a
    carrier if it restates the current identity, or an older write of the clock's own device. -/
def settleRow (s : Store) (w : RowWrite) : RowSettle × Store :=
  let key := rowPkString w.pkVals
  if s.suppresses key w.identity then (.held false, s)
  else
    match s.unbeaten key w.identity with
    | some stored =>
      let carries := w.identity = stored ∨ (w.signer ≠ w.identity ∧ w.identity.device = stored.device)
      if carries then
        let stated := s.stateRow key w.signer
        (.held stated.1, stated.2)
      else (.held false, s)
    | none =>
      let row := writtenRow spec schema s w.pkVals w.known
      if schema.writeViolates s.rows (pkParams w.pkVals) row then
        (.quarantined s!"op violates a column constraint on `{spec.name}`", s)
      else
        let s' := { s with rows := Function.update s.rows (pkParams w.pkVals) (some row) }
        let raised := s'.raiseRowClock key w.identity w.signer
        match syncedRowHash sha256 spec raised w.pkVals with
        | some hash => (.won, raised.recordPublished key hash spec.specVersion)
        | none => (.won, raised)

/-! ## 6. The four ops -/

/-- What became of an op. -/
inductive ApplyOutcome where
  | applied
  | superseded
  | quarantined (why : String) (changed : Bool)
  | unprojectable (reason : PendingReason)
  deriving DecidableEq

/-- A constraint refused it. -/
def ApplyOutcome.isQuarantined : ApplyOutcome → Bool
  | .quarantined .. => true
  | _ => false

/-- What a batch has done so far: whether merge state moved, and the first violation. -/
structure BatchState where
  changed : Bool
  quarantined : Option String
  store : Store

/-- What a batch comes to. -/
def BatchState.outcome (b : BatchState) : ApplyOutcome × Store :=
  match b.quarantined with
  | some why => (.quarantined why b.changed, b.store)
  | none => (if b.changed then .applied else .superseded, b.store)

/-- A delete by its own author. -/
def applyRemove (s : Store) (pkVals : List TypedValue) (m : EntryMeta) : ApplyOutcome × Store :=
  let settled := settleDelete spec schema s pkVals m.clock m.clock
  match settled.1.row with
  | .quarantined why => (.quarantined why false, settled.2)
  | .won _ => (.applied, settled.2)
  | .kept => (.superseded, settled.2)

/-- One delete of a restatement. -/
def restateStep (m : EntryMeta) (b : BatchState) (d : StatedDelete) : BatchState :=
  let settled := settleDelete spec schema b.store d.pk ⟨d.lamport, d.device⟩ m.clock
  match settled.1.row with
  | .quarantined why => ⟨b.changed, b.quarantined <|> some why, settled.2⟩
  | .won deleted => ⟨b.changed || deleted || settled.1.mergeChanged, b.quarantined, settled.2⟩
  | .kept => ⟨b.changed || settled.1.mergeChanged, b.quarantined, settled.2⟩

/-- A batch of deletes restated. -/
def applyRestate (s : Store) (deletes : List StatedDelete) (m : EntryMeta) : ApplyOutcome × Store :=
  (deletes.foldl (restateStep spec schema m) ⟨false, none, s⟩).outcome

/-- A write by its own author. -/
def applyUpsert (s : Store) (pkVals : List TypedValue) (known : Known) (m : EntryMeta) :
    ApplyOutcome × Store :=
  let settled := settleRow sha256 spec schema s ⟨pkVals, known, m.clock, m.clock⟩
  match settled.1 with
  | .won => (.applied, settled.2)
  | .held _ => (.superseded, settled.2)
  | .quarantined why => (.quarantined why false, settled.2)

/-- One stated row; every row was projected before, so the arm of one that does not project is not
    taken. -/
def restateRowsStep (specVersion : Nat) (m : EntryMeta) (b : BatchState) (row : StatedRow) :
    BatchState :=
  match projectCells spec specVersion row.cells with
  | .complete known =>
    let settled := settleRow sha256 spec schema b.store
      ⟨row.pk, known, ⟨row.lamport, row.device⟩, m.clock⟩
    match settled.1 with
    | .won => ⟨true, b.quarantined, settled.2⟩
    | .held carried => ⟨b.changed || carried, b.quarantined, settled.2⟩
    | .quarantined why => ⟨b.changed, b.quarantined <|> some why, settled.2⟩
  | _ => b

/-- A batch of rows restated. -/
def applyRestateRows (s : Store) (specVersion : Nat) (rows : List StatedRow) (m : EntryMeta) :
    ApplyOutcome × Store :=
  (rows.foldl (restateRowsStep sha256 spec schema specVersion m) ⟨false, none, s⟩).outcome

/-- A statement at or above the entry's own lamport would mint an identity its chain never held. -/
def statedAbove (op : RowOp) (m : EntryMeta) : Option String :=
  match op with
  | .restate _ _ deletes =>
    if deletes.any fun d => m.lamport ≤ d.lamport then
      some (s!"restate on `{spec.name}` states a delete at or above its own lamport " ++
        s!"{m.lamport}")
    else none
  | .restateRows _ _ rows =>
    if rows.any fun r => m.lamport ≤ r.lamport then
      some (s!"restate-rows on `{spec.name}` states a row at or above its own lamport " ++
        s!"{m.lamport}")
    else none
  | _ => none

/-- Fold `op` into the table, ordered by `m`; by `payloadVerdict_known` the last arm is not taken.
    -/
def applyRowOpOnStream (repoId : String) (s : Store) (op : RowOp) (m : EntryMeta) :
    ApplyOutcome × Store :=
  match statedAbove spec op m with
  | some why => (.quarantined why false, s)
  | none =>
    match payloadVerdict spec repoId op with
    | .gap reason => (.unprojectable reason, s)
    | .rejected why => (.quarantined why false, s)
    | .rowDecides known =>
      match known, op with
      | some known, .upsert _ _ pk _ => applyUpsert sha256 spec schema s pk known m
      | none, .remove _ _ pk => applyRemove spec schema s pk m
      | none, .restate _ _ deletes => applyRestate spec schema s deletes m
      | none, .restateRows _ v rows => applyRestateRows sha256 spec schema s v rows m
      | _, _ => (.superseded, s)

end Settle

end RagRat.TableSync
