/-
  File:      RagRat/TableSync/Settle.lean
  Subject:   What one decision does to its row, and that it is a step of the last-writer-wins cell.

  * `RowClock` is a linear order, and `beats` is its strict order;
  * `settleRow_cases`, `settleDelete_cases` -- everything a decision can do, said once;
  * `Agrees` -- the store's slice of one row read as a cell (`RagRat.Lib.Lww`): the clock, the
    tombstone, the physical row and the published hash;
  * `agrees_settleRow`, `agrees_settleDelete` -- a decision no constraint stops is the cell's step
    on its own row, and `SameOutside` says it leaves every other row alone.
-/
import Mathlib.Data.Prod.Lex
import Mathlib.Order.Lattice
import RagRat.Lib.Lww
import RagRat.TableSync.Apply

namespace RagRat.TableSync

open List
open Lib.Lww (Event)
open Function

/-! ## 1. The order of clocks -/

namespace RowClock

/-- Higher lamports are greater; at one lamport the smaller fingerprint is. -/
def rank (c : RowClock) : ℕ ×ₗ (DeviceFingerprint)ᵒᵈ := toLex (c.lamport, OrderDual.toDual c.device)

theorem rank_injective : Injective rank := by
  intro a b h
  cases a
  cases b
  simpa [rank] using h

instance : LinearOrder RowClock := LinearOrder.lift' rank rank_injective

theorem beats_iff (a b : RowClock) : a.beats b = true ↔ b < a := by
  have hlt : b < a ↔ b.rank < a.rank := Iff.rfl
  rw [hlt, Prod.Lex.lt_iff]
  simp only [beats, rank, ofLex_toLex, OrderDual.toDual_lt_toDual, decide_eq_true_eq]
  rw [eq_comm]

theorem not_beats_iff (a b : RowClock) : a.beats b = false ↔ a ≤ b := by
  rw [← not_lt, ← beats_iff, Bool.not_eq_true]

end RowClock

/-- A stored clock as a bound: no clock is below every clock. -/
def toBot : Option RowClock → WithBot RowClock
  | none => ⊥
  | some c => c

@[simp] theorem toBot_none : toBot none = ⊥ := rfl

@[simp] theorem toBot_some (c : RowClock) : toBot (some c) = c := rfl

theorem toBot_injective : Injective toBot := by
  intro a b h
  cases a <;> cases b
  · rfl
  · exact absurd h.symm WithBot.coe_ne_bot
  · exact absurd h WithBot.coe_ne_bot
  · exact congrArg some (WithBot.coe_injective h)

/-! ## 2. Everything a decision can do -/

section Cases

variable {sha256 : Lib.Cbor.Bytes → Bytes32} {spec : TableSpec} {schema : Schema spec} {s : Store}
  {key : String} {c : RowClock}

theorem raiseClock_of_lt {clocks : String → Option RowClock} (h : toBot (clocks key) < c) :
    raiseClock clocks key c = (true, Function.update clocks key (some c)) := by
  unfold raiseClock
  cases hk : clocks key with
  | none => rfl
  | some stored =>
    rw [hk] at h
    have hb : c.beats stored = true := (c.beats_iff stored).mpr (WithBot.coe_lt_coe.mp h)
    simp [hb]

/-- The published hash a winning write records: none when the row it wrote cannot be read back. -/
def publishedAfter (sha256 : Lib.Cbor.Bytes → Bytes32) (spec : TableSpec) (s : Store) (key : String)
    (row : PhysicalRow) : String → Option (String × Nat) :=
  match readColumns row spec.columns with
  | .cells cells =>
    Function.update s.publishedRows key (some (cellsHash sha256 cells, spec.specVersion))
  | _ => s.publishedRows

theorem publishedAfter_of_ne {k : String} {row : PhysicalRow} (hne : k ≠ key) :
    publishedAfter sha256 spec s key row k = s.publishedRows k := by
  unfold publishedAfter
  cases readColumns row spec.columns with
  | cells cells => exact update_of_ne hne _ _
  | absent => rfl
  | unreadable why => rfl

/-- The store a winning write leaves. -/
def wonStore (sha256 : Lib.Cbor.Bytes → Bytes32) (spec : TableSpec) (schema : Schema spec)
    (s : Store) (w : RowWrite) : Store :=
  let key := rowPkString w.pkVals
  let row := writtenRow spec schema s w.pkVals w.known
  { s with
    rows := Function.update s.rows (pkParams w.pkVals) (some row)
    rowClocks := Function.update s.rowClocks key (some w.identity)
    rowStatements := (advanceStatement (clearStatements s.rowStatements key) key w.signer).2
    publishedRows := publishedAfter sha256 spec s key row }

/-- A write that does not win still makes its signer a carrier of the row. -/
def Carries (w : RowWrite) (stored : RowClock) : Prop :=
  w.identity = stored ∨ (w.signer ≠ w.identity ∧ w.identity.device = stored.device)

variable (sha256 spec schema s) in
/-- **What a write can do**: lose to the tombstone or the clock, fail on a constraint, or win. -/
inductive RowSettles (w : RowWrite) : RowSettle × Store → Prop where
  | suppressed (h : ↑w.identity ≤ toBot (s.rowTombstones (rowPkString w.pkVals))) :
      RowSettles w (.held false, s)
  | carried (stored : RowClock) (hc : s.rowClocks (rowPkString w.pkVals) = some stored)
      (ht : toBot (s.rowTombstones (rowPkString w.pkVals)) < w.identity)
      (hle : w.identity ≤ stored) (hcar : Carries w stored) :
      RowSettles w (.held (s.stateRow (rowPkString w.pkVals) w.signer).1,
        (s.stateRow (rowPkString w.pkVals) w.signer).2)
  | lost (stored : RowClock) (hc : s.rowClocks (rowPkString w.pkVals) = some stored)
      (ht : toBot (s.rowTombstones (rowPkString w.pkVals)) < w.identity)
      (hle : w.identity ≤ stored) (hcar : ¬ Carries w stored) : RowSettles w (.held false, s)
  | violated (why : String) : RowSettles w (.quarantined why, s)
  | won (ht : toBot (s.rowTombstones (rowPkString w.pkVals)) < w.identity)
      (hc : toBot (s.rowClocks (rowPkString w.pkVals)) < w.identity) :
      RowSettles w (.won, wonStore sha256 spec schema s w)

theorem raiseRowClock_of_lt {signer : RowClock} {r : List SqlValue → Option PhysicalRow}
    (h : toBot (s.rowClocks key) < c) : { s with rows := r }.raiseRowClock key c signer =
      { s with
        rows := r
        rowClocks := Function.update s.rowClocks key (some c)
        rowStatements := (advanceStatement (clearStatements s.rowStatements key) key signer).2 } := by
  unfold Store.raiseRowClock
  rw [raiseClock_of_lt h]
  rfl

theorem suppresses_iff (key : String) (c : RowClock) :
    s.suppresses key c = true ↔ ↑c ≤ toBot (s.rowTombstones key) := by
  unfold Store.suppresses
  cases s.rowTombstones key with
  | none => simp
  | some d => simp [RowClock.not_beats_iff]

theorem unbeaten_eq_none_iff (key : String) (c : RowClock) :
    s.unbeaten key c = none ↔ toBot (s.rowClocks key) < c := by
  unfold Store.unbeaten
  cases s.rowClocks key with
  | none => simp
  | some d => simp [RowClock.beats_iff]

theorem unbeaten_eq_some {d : RowClock} (h : s.unbeaten key c = some d) :
    s.rowClocks key = some d ∧ c ≤ d := by
  unfold Store.unbeaten at h
  cases hk : s.rowClocks key with
  | none => rw [hk] at h; cases h
  | some stored =>
    rw [hk] at h
    simp only [Option.ite_none_left_eq_some, Option.some.injEq, Bool.not_eq_true] at h
    obtain ⟨hnb, rfl⟩ := h
    exact ⟨rfl, (c.not_beats_iff stored).mp hnb⟩

theorem settleRow_settles (s : Store) (w : RowWrite) :
    RowSettles sha256 spec schema s w (settleRow sha256 spec schema s w) := by
  unfold settleRow
  simp only
  split
  · exact .suppressed ((suppresses_iff _ _).mp ‹_›)
  rename_i hsup
  have ht : toBot (s.rowTombstones (rowPkString w.pkVals)) < w.identity :=
    not_le.mp fun hle => hsup ((suppresses_iff _ _).mpr hle)
  split
  · rename_i stored hun
    obtain ⟨hk, hle⟩ := unbeaten_eq_some hun
    split
    · exact .carried stored hk ht hle ‹_›
    · exact .lost stored hk ht hle ‹_›
  · rename_i hun
    have hc := (unbeaten_eq_none_iff _ _).mp hun
    split
    · exact .violated _
    rw [raiseRowClock_of_lt hc]
    have hwon : RowSettles sha256 spec schema s w (.won, wonStore sha256 spec schema s w) :=
      .won ht hc
    simp only [wonStore, publishedAfter] at hwon
    simp only [syncedRowHash, readSyncedCells, update_self]
    cases hr : readColumns (writtenRow spec schema s w.pkVals w.known) spec.columns with
    | cells cells => rw [hr] at hwon; exact hwon
    | absent => rw [hr] at hwon; exact hwon
    | unreadable why => rw [hr] at hwon; exact hwon

variable (sha256 schema) in
theorem settleRow_cases (s : Store) (w : RowWrite) :
    ∃ r, settleRow sha256 spec schema s w = r ∧ RowSettles sha256 spec schema s w r :=
  ⟨_, rfl, settleRow_settles s w⟩

/-! ## 3. Deletes -/

/-- The tombstone statements after a delete at `identity` by `signer`. -/
def tombstonesAfter (s : Store) (key : String) (identity signer : RowClock) : List Statement :=
  if toBot (s.rowTombstones key) < identity then
    (advanceStatement (clearStatements s.tombstoneStatements key) key signer).2
  else if s.rowTombstones key = some identity then
    (advanceStatement s.tombstoneStatements key signer).2
  else s.tombstoneStatements

theorem outranksTombstone_iff (key : String) (c : RowClock) :
    s.outranksTombstone key c = true ↔ toBot (s.rowTombstones key) < c := by
  unfold Store.outranksTombstone
  cases s.rowTombstones key with
  | none => simp
  | some d => simp [RowClock.beats_iff]

/-- The clock the tombstone ends at: the greater of the two. -/
def tombstoneAfter (s : Store) (key : String) (identity : RowClock) : Option RowClock :=
  if toBot (s.rowTombstones key) < identity then some identity else s.rowTombstones key

theorem raiseTombstone_store (s : Store) (key : String) (identity signer : RowClock) :
    (s.raiseTombstone key identity signer).2 =
      { s with
        rowTombstones := update s.rowTombstones key (tombstoneAfter s key identity)
        tombstoneStatements := tombstonesAfter s key identity signer } := by
  unfold Store.raiseTombstone tombstoneAfter tombstonesAfter
  by_cases hlt : toBot (s.rowTombstones key) < identity
  · simp [(outranksTombstone_iff key identity).mpr hlt, raiseClock_of_lt hlt, hlt]
  have hno : s.outranksTombstone key identity = false := by
    rw [← Bool.not_eq_true, outranksTombstone_iff]
    exact hlt
  simp only [hno, hlt, Bool.false_eq_true, if_false, update_eq_self]
  split <;> rfl

variable (s) in
/-- **What a delete can do**: lose to a newer write, fail on a constraint, or win. -/
inductive DeleteSettles (pk : List TypedValue) (identity signer : RowClock) :
    RowFate → Store → Prop where
  | kept (h : ↑identity < toBot (s.rowClocks (rowPkString pk))) :
      DeleteSettles pk identity signer .kept
        { s with
          rowTombstones := update s.rowTombstones (rowPkString pk)
            (tombstoneAfter s (rowPkString pk) identity)
          tombstoneStatements := tombstonesAfter s (rowPkString pk) identity signer }
  | violated (why : String) : DeleteSettles pk identity signer (.quarantined why) s
  | won (deleted : Bool) (h : toBot (s.rowClocks (rowPkString pk)) ≤ identity) :
      DeleteSettles pk identity signer (.won deleted)
        { rows := update s.rows (pkParams pk) none
          rowClocks := update s.rowClocks (rowPkString pk) none
          rowStatements := clearStatements s.rowStatements (rowPkString pk)
          publishedRows := update s.publishedRows (rowPkString pk) none
          rowTombstones := update s.rowTombstones (rowPkString pk)
            (tombstoneAfter s (rowPkString pk) identity)
          tombstoneStatements := tombstonesAfter s (rowPkString pk) identity signer }

theorem survives_iff (key : String) (c : RowClock) :
    s.survives key c = true ↔ ↑c < toBot (s.rowClocks key) := by
  unfold Store.survives
  cases s.rowClocks key with
  | none => simp
  | some d => simp [RowClock.beats_iff]

theorem settleDelete_settles (s : Store) (pk : List TypedValue) (identity signer : RowClock) :
    DeleteSettles s pk identity signer
      (settleDelete spec schema s pk identity signer).1.row
      (settleDelete spec schema s pk identity signer).2 := by
  unfold settleDelete
  simp only
  split
  · simp only [raiseTombstone_store]
    exact .kept ((survives_iff _ _).mp ‹_›)
  rename_i hsur
  split
  · exact .violated _
  · simp only [raiseTombstone_store]
    exact .won _ (not_lt.mp fun hlt => hsur ((survives_iff _ _).mpr hlt))

variable (schema) in
theorem settleDelete_cases (s : Store) (pk : List TypedValue) (identity signer : RowClock) :
    ∃ fate moved s', settleDelete spec schema s pk identity signer = (⟨fate, moved⟩, s') ∧
      DeleteSettles s pk identity signer fate s' :=
  ⟨_, _, _, rfl, settleDelete_settles s pk identity signer⟩

end Cases

/-! ## 4. The physical row of an after-image -/

section Rows

variable {spec : TableSpec} {schema : Schema spec} {known : Known} {α β : Type} {c : String}
  {pk : List TypedValue} {l : List (α × β)} {t : ValueType} {a : α}

theorem Complete.keys (h : Complete spec known) : known.map (·.1) = spec.columns.map (·.name) := by
  unfold Complete at h
  generalize spec.columns = columns at h ⊢
  induction h with
  | nil => rfl
  | cons hcv _ ih => rw [map_cons, map_cons, ih, hcv.1]

theorem lookup_eq_none_of_not_mem [DecidableEq α] (h : a ∉ l.map (·.1)) : l.lookup a = none := by
  rw [lookup_eq_none_iff]
  intro p hp
  simp only [bne_iff_ne, ne_eq]
  rintro rfl
  exact h (mem_map_of_mem hp)

theorem lookup_isSome_of_mem [DecidableEq α] (h : a ∈ l.map (·.1)) : ∃ b, l.lookup a = some b := by
  cases hl : l.lookup a with
  | some b => exact ⟨b, rfl⟩
  | none =>
    obtain ⟨p, hp, rfl⟩ := mem_map.mp h
    simpa using lookup_eq_none_iff.mp hl p hp

theorem lookup_eq_some_of_mem [DecidableEq α] {p : α × β} (hnd : (l.map (·.1)).Nodup) (hp : p ∈ l) :
    l.lookup p.1 = some p.2 := by
  induction l with
  | nil => cases hp
  | cons q l ih =>
    rw [map_cons, nodup_cons] at hnd
    rcases mem_cons.mp hp with rfl | htl
    · exact lookup_cons_self
    · have hne : p.1 ≠ q.1 := fun e => hnd.1 (e ▸ mem_map_of_mem htl)
      rw [lookup_cons, beq_false_of_ne hne]
      exact ih hnd.2 htl

theorem knownSql_keys (h : Complete spec known) :
    (knownSql known).map (·.1) = spec.columns.map (·.name) := by
  rw [← h.keys]
  simp [knownSql]

theorem pkLookup_eq_none {pkVals : List TypedValue} (h : c ∉ spec.pk.map (·.name)) :
    ((spec.pk.map (·.name)).zip (pkParams pkVals)).lookup c = none := by
  apply lookup_eq_none_of_not_mem
  intro hmem
  obtain ⟨p, hp, rfl⟩ := mem_map.mp hmem
  exact h (of_mem_zip hp).1

theorem not_mem_pk_of_column (h : c ∈ spec.columns.map (·.name)) : c ∉ spec.pk.map (·.name) := by
  have hnd := spec.classified
  rw [append_assoc, nodup_append] at hnd
  intro hpk
  exact hnd.2.2 c hpk c (mem_append_left _ h) rfl

theorem not_mem_of_local (h : c ∈ spec.localColumns) :
    c ∉ spec.pk.map (·.name) ∧ c ∉ spec.columns.map (·.name) := by
  have hnd := spec.classified
  rw [nodup_append] at hnd
  constructor
  · intro hpk
    exact hnd.2.2 c (mem_append_left _ hpk) c h rfl
  · intro hcol
    exact hnd.2.2 c (mem_append_right _ hcol) c h rfl

/-- **A row a write updates is the row it would insert**, local columns apart. -/
theorem updateRow_insertRow {known' : Known} {reset : List String} (hk : Complete spec known)
    (hk' : Complete spec known') (hreset : ∀ c ∈ reset, c ∈ resetOnUpsert spec) :
    updateRow spec known' reset (insertRow spec schema pk known) = insertRow spec schema pk known' := by
  funext c
  by_cases hcol : c ∈ spec.columns.map (·.name)
  · obtain ⟨v, hv⟩ := lookup_isSome_of_mem (knownSql_keys hk' ▸ hcol)
    simp only [updateRow, insertRow, hv, pkLookup_eq_none (not_mem_pk_of_column hcol)]
  have hv : (knownSql known).lookup c = none :=
    lookup_eq_none_of_not_mem (knownSql_keys hk ▸ hcol)
  have hv' : (knownSql known').lookup c = none :=
    lookup_eq_none_of_not_mem (knownSql_keys hk' ▸ hcol)
  simp only [updateRow, hv']
  split_ifs with hres
  · have hloc := schema.resetLocal c (hreset c hres.1)
    have hdef := schema.resetDefault c (hreset c hres.1)
    simp only [insertRow, hv', pkLookup_eq_none (not_mem_of_local hloc).1, hdef]
  · simp only [insertRow, hv, hv']

theorem readTyped_sqlValue {v : TypedValue} (h : valueMatches v t = true) :
    readTyped t (sqlValue v) = .value v := by
  cases v with
  | null => cases t <;> rfl
  | bool b => cases t <;> cases b <;> first | rfl | cases h
  | i64 n => cases t <;> first | rfl | cases h
  | text s => cases t <;> first | rfl | cases h
  | blob bs => cases t <;> first | rfl | cases h

theorem readColumns_of_forall₂ {row : PhysicalRow} {columns : List ColumnSpec}
    (h : List.Forall₂ (fun (c : ColumnSpec) (nv : String × TypedValue) =>
      nv.1 = c.name ∧ valueMatches nv.2 c.valueType = true) columns known)
    (hrow : ∀ nv ∈ known, row nv.1 = sqlValue nv.2) :
    readColumns row columns = .cells (knownCells known) := by
  induction h with
  | nil => rfl
  | @cons c nv cs nvs hcv _ ih =>
    have hc : readTyped c.valueType (row c.name) = .value nv.2 := by
      rw [← hcv.1, hrow nv mem_cons_self, readTyped_sqlValue hcv.2]
    have htail := ih fun nv' h' => hrow nv' (mem_cons_of_mem _ h')
    unfold readColumns
    rw [hc, htail]
    simp [knownCells, hcv.1]

theorem readColumns_insertRow (hk : Complete spec known) :
    readColumns (insertRow spec schema pk known) spec.columns = .cells (knownCells known) := by
  refine readColumns_of_forall₂ hk fun nv hnv => ?_
  have hcol : nv.1 ∈ spec.columns.map (·.name) := hk.keys ▸ mem_map_of_mem hnv
  have hnd : ((knownSql known).map (·.1)).Nodup := by
    rw [knownSql_keys hk]
    have := spec.classified
    rw [nodup_append, nodup_append] at this
    exact this.1.2.1
  have hmem : (nv.1, sqlValue nv.2) ∈ knownSql known :=
    mem_map.mpr ⟨nv, hnv, rfl⟩
  have hlook := lookup_eq_some_of_mem hnd hmem
  simp only [insertRow, pkLookup_eq_none (not_mem_pk_of_column hcol), hlook]

theorem sqlValue_inj {v w : TypedValue} (hv : valueMatches v t = true)
    (hw : valueMatches w t = true) (h : sqlValue v = sqlValue w) : v = w := by
  have hread := readTyped_sqlValue hv
  rw [h, readTyped_sqlValue hw] at hread
  exact (ReadCell.value.inj hread).symm

theorem pkParams_inj {pk' : List TypedValue} (h : WellTyped spec pk) (h' : WellTyped spec pk')
    (heq : pkParams pk = pkParams pk') : pk = pk' := by
  unfold WellTyped at h h'
  generalize spec.pk = columns at h h'
  induction h generalizing pk' with
  | nil => cases h'; rfl
  | cons hcv _ ih =>
    cases h' with
    | cons hcv' htl =>
      simp only [pkParams, map_cons, List.cons.injEq] at heq
      rw [sqlValue_inj hcv.2 hcv'.2 heq.1, ih heq.2 htl]

end Rows

/-! ## 5. A row as a last-writer-wins cell -/

/-- A row the log can name: addressable on the table and under its bookkeeping key. -/
def RowName (spec : TableSpec) (pk : List TypedValue) : Prop := WellTyped spec pk ∧ PkAddressable pk

/-- A row as a last-writer-wins register. -/
abbrev RowCell := Lib.Lww.Cell RowClock Known

section Agree

variable (sha256 : Lib.Cbor.Bytes → Bytes32) (spec : TableSpec) (schema : Schema spec)

/-- The store's slice of the row `pk`, read as a cell. -/
structure Agrees (s : Store) (pk : List TypedValue) (cell : RowCell) : Prop where
  clock : s.rowClocks (rowPkString pk) = cell.live.map (·.1)
  tomb : toBot (s.rowTombstones (rowPkString pk)) = cell.tomb
  row : s.rows (pkParams pk) = cell.live.map fun cv => insertRow spec schema pk cv.2
  published : s.publishedRows (rowPkString pk) =
    cell.live.map fun cv => (cellsHash sha256 (knownCells cv.2), spec.specVersion)
  complete : ∀ cv, cell.live = some cv → Complete spec cv.2

/-- Two stores that differ at most on the row `pk` (and in the statement tables). -/
structure SameOutside (pk : List TypedValue) (s s' : Store) : Prop where
  clock : ∀ key, key ≠ rowPkString pk → s'.rowClocks key = s.rowClocks key
  tomb : ∀ key, key ≠ rowPkString pk → s'.rowTombstones key = s.rowTombstones key
  published : ∀ key, key ≠ rowPkString pk → s'.publishedRows key = s.publishedRows key
  row : ∀ k, k ≠ pkParams pk → s'.rows k = s.rows k

variable {sha256 spec schema} {s s' : Store} {pk : List TypedValue} {cell : RowCell}

section

variable (h : Agrees sha256 spec schema s pk cell)

include h

theorem Agrees.toBot_clock : toBot (s.rowClocks (rowPkString pk)) = cell.clock := by
  rw [h.clock]
  unfold Lib.Lww.Cell.clock
  cases cell.live <;> rfl

theorem Agrees.frame {pk' : List TypedValue} (hs : SameOutside pk' s s') (hpk : RowName spec pk)
    (hpk' : RowName spec pk') (hne : pk ≠ pk') : Agrees sha256 spec schema s' pk cell where
  clock := (hs.clock _ fun e => hne (rowPkString_inj hpk.2 hpk'.2 e)).trans h.clock
  tomb := by rw [hs.tomb _ fun e => hne (rowPkString_inj hpk.2 hpk'.2 e), h.tomb]
  row := (hs.row _ fun e => hne (pkParams_inj hpk.1 hpk'.1 e)).trans h.row
  published := (hs.published _ fun e => hne (rowPkString_inj hpk.2 hpk'.2 e)).trans h.published
  complete := h.complete

theorem writtenRow_eq {known : Known} (hk : Complete spec known) :
    writtenRow spec schema s pk known = insertRow spec schema pk known := by
  unfold writtenRow
  rw [h.row]
  cases hl : cell.live with
  | none => rfl
  | some cv =>
    refine updateRow_insertRow (h.complete cv hl) hk fun c hc => ?_
    split_ifs at hc
    · cases hc
    · exact hc

theorem agrees_settleRow {w : RowWrite} (hw : w.pkVals = pk) (hk : Complete spec w.known)
    (hq : ∀ why, (settleRow sha256 spec schema s w).1 ≠ .quarantined why) :
    Agrees sha256 spec schema (settleRow sha256 spec schema s w).2 pk
      (cell.step (.write w.identity w.known)) := by
  subst hw
  obtain ⟨r, hr, hset⟩ := settleRow_cases sha256 schema s w
  rw [hr] at hq ⊢
  cases hset with
  | suppressed hle =>
    rw [h.tomb] at hle
    rwa [Lib.Lww.Cell.step, if_neg fun hlt => absurd hlt.1 (not_lt.mpr hle)]
  | carried stored hc ht hle hcar =>
    have hclk : ¬ cell.clock < w.identity := by
      rw [← h.toBot_clock, hc]
      exact not_lt.mpr (WithBot.coe_le_coe.mpr hle)
    rw [Lib.Lww.Cell.step, if_neg fun hlt => hclk hlt.2]
    -- a change of the statement tables only
    exact ⟨h.clock, h.tomb, h.row, h.published, h.complete⟩
  | lost stored hc ht hle hcar =>
    have hclk : ¬ cell.clock < w.identity := by
      rw [← h.toBot_clock, hc]
      exact not_lt.mpr (WithBot.coe_le_coe.mpr hle)
    rwa [Lib.Lww.Cell.step, if_neg fun hlt => hclk hlt.2]
  | violated why => exact absurd rfl (hq why)
  | won ht hc =>
    rw [h.tomb] at ht
    rw [h.toBot_clock] at hc
    rw [Lib.Lww.Cell.step, if_pos ⟨ht, hc⟩]
    have hrow := writtenRow_eq h hk
    exact {
      clock := by simp [wonStore]
      tomb := by simpa [wonStore] using h.tomb
      row := by simp [wonStore, hrow]
      published := by simp [wonStore, publishedAfter, hrow, readColumns_insertRow hk]
      complete := by
        rintro cv hcv
        cases hcv
        exact hk }

theorem agrees_settleDelete {identity signer : RowClock}
    (hq : ∀ why, (settleDelete spec schema s pk identity signer).1.row ≠ .quarantined why) :
    Agrees sha256 spec schema (settleDelete spec schema s pk identity signer).2 pk
      (cell.step (.delete identity)) := by
  obtain ⟨fate, moved, s', hr, hset⟩ := settleDelete_cases schema s pk identity signer
  rw [hr] at hq ⊢
  have htomb : toBot (tombstoneAfter s (rowPkString pk) identity) = cell.tomb ⊔ identity := by
    rw [← h.tomb]
    unfold tombstoneAfter
    split_ifs with hlt
    · exact (sup_eq_right.mpr hlt.le).symm
    · exact (sup_eq_left.mpr (not_lt.mp hlt)).symm
  cases hset with
  | kept hlt =>
    rw [h.toBot_clock] at hlt
    rw [Lib.Lww.Cell.step, if_pos hlt]
    exact {
      clock := h.clock
      tomb := by simpa using htomb
      row := h.row
      published := h.published
      complete := h.complete }
  | violated why => exact absurd rfl (hq why)
  | won deleted hle =>
    rw [h.toBot_clock] at hle
    rw [Lib.Lww.Cell.step, if_neg (not_lt.mpr hle)]
    exact {
      clock := by simp
      tomb := by simpa using htomb
      row := by simp
      published := by simp
      complete := by rintro cv hcv; cases hcv }

end

theorem settleRow_sameOutside (s : Store) (w : RowWrite) :
    SameOutside w.pkVals s (settleRow sha256 spec schema s w).2 := by
  obtain ⟨r, hr, hset⟩ := settleRow_cases sha256 schema s w
  rw [hr]
  cases hset with
  | suppressed | lost | violated => exact ⟨fun _ _ => rfl, fun _ _ => rfl, fun _ _ => rfl, fun _ _ => rfl⟩
  | carried => exact ⟨fun _ _ => rfl, fun _ _ => rfl, fun _ _ => rfl, fun _ _ => rfl⟩
  | won ht hc =>
    refine ⟨fun key hne => ?_, fun key hne => rfl, fun key hne => ?_, fun k hne => ?_⟩
    · simp [wonStore, Function.update_of_ne hne]
    · exact publishedAfter_of_ne hne
    · simp [wonStore, Function.update_of_ne hne]

theorem settleDelete_sameOutside (s : Store) (pk : List TypedValue) (identity signer : RowClock) :
    SameOutside pk s (settleDelete spec schema s pk identity signer).2 := by
  obtain ⟨fate, moved, s', hr, hset⟩ := settleDelete_cases schema s pk identity signer
  rw [hr]
  cases hset with
  | kept | violated | won =>
    refine ⟨fun key hne => ?_, fun key hne => ?_, fun key hne => ?_, fun k hne => ?_⟩ <;>
      simp [update_of_ne hne]

end Agree

end RagRat.TableSync
