/-
  File:      RagRat/TableSync/Converge.lean
  Subject:   WHOLE-ROW LAST-WRITER-WINS CONVERGES: the fold of a set of row ops does not depend on
             the order or the number of times they arrive.

  An entry states writes and deletes of rows, each at its own identity (`RowEntry.writes`,
  `RowEntry.deletes`); applying it is settling them one after the other (`applyEntry_eq`). On each
  row that is a run of the last-writer-wins cell (`Folded.run`), so the fold is what the
  greatest write and the greatest delete of the row say (`RagRat.Lib.Lww`).

  * `applyAll_converges` -- the fold of two lists with the same entries, and what each row holds.
-/
import RagRat.TableSync.Settle

namespace RagRat.TableSync

open List
open Lib.Lww (Event)
open Lib.Lww.Cell Store

variable {s t : Store} {c d : RowClock} {k known : Known} {l es xs ys : List RowEntry}
  {b : BatchState}

/-! ## 1. What an entry states -/

/-- An entry of the table log: the op and the identity it was signed at. -/
structure RowEntry where
  op : RowOp
  opMeta : EntryMeta
  addressable : ∀ pk ∈ op.pks, PkAddressable pk

open RowEntry

/-- The clock of an entry. -/
def RowEntry.clock (e : RowEntry) : RowClock := e.opMeta.clock

/-- The lamports a restatement states rows or deletes at. -/
def RowOp.statedLamports : RowOp → List Nat
  | .upsert .. | .remove .. => []
  | .restate _ _ deletes => deletes.map (·.lamport)
  | .restateRows _ _ rows => rows.map (·.lamport)

/-- The writes an entry states: the row, the identity and the after-image. -/
def RowEntry.writes (spec : TableSpec) (e : RowEntry) :
    List (List TypedValue × RowClock × Known) :=
  match e.op with
  | .upsert _ v pk cells =>
    match projectCells spec v cells with
    | .complete known => [(pk, e.clock, known)]
    | _ => []
  | .restateRows _ v rows => rows.filterMap fun row =>
    match projectCells spec v row.cells with
    | .complete known => some (row.pk, ⟨row.lamport, row.device⟩, known)
    | _ => none
  | .remove .. | .restate .. => []

/-- The deletes an entry states: the row and the identity. -/
def RowEntry.deletes (e : RowEntry) : List (List TypedValue × RowClock) :=
  match e.op with
  | .remove _ _ pk => [(pk, e.clock)]
  | .restate _ _ deletes => deletes.map fun d => (d.pk, ⟨d.lamport, d.device⟩)
  | .upsert .. | .restateRows .. => []

/-- One statement about one row, with the entry that carries it. -/
inductive Action where
  | write (pk : List TypedValue) (c : RowClock) (known : Known) (signer : RowClock)
  | delete (pk : List TypedValue) (c : RowClock) (signer : RowClock)

open TableSync.Action

namespace Action

/-- The row an action is about. -/
def pk : Action → List TypedValue
  | write pk _ _ _ | delete pk _ _ => pk

/-- The action as an event of the row's register. -/
def event : Action → Event RowClock Known
  | write _ c known _ => .write c known
  | delete _ c _ => .delete c

/-- A statement the table can hold: its row is addressable, its after-image complete. -/
def Fits (spec : TableSpec) : Action → Prop
  | write pk _ known _ => RowName spec pk ∧ Complete spec known
  | delete pk _ _ => RowName spec pk

end Action

/-- What an entry does, row by row. -/
def RowEntry.actions (spec : TableSpec) (e : RowEntry) : List Action :=
  (e.writes spec).map (fun w => .write w.1 w.2.1 w.2.2 e.clock) ++
    e.deletes.map fun d => .delete d.1 d.2 e.clock

/-! ## 2. Applying an entry is settling what it states -/

section Run

variable (sha256 : Lib.Cbor.Bytes → Bytes32) (spec : TableSpec) (schema : Schema spec)
  {as bs : List Action} {e : RowEntry} {a : Action} {pk : List TypedValue}

/-- One action on the table. -/
def Action.apply (s : Store) : Action → Store
  | write pk c known signer => (settleRow sha256 spec schema s ⟨pk, known, c, signer⟩).2
  | delete pk c signer => (settleDelete spec schema s pk c signer).2

/-- No constraint stops the statement. -/
def Action.Passes (s : Store) : Action → Prop
  | write pk c known signer =>
    ∀ why, (settleRow sha256 spec schema s ⟨pk, known, c, signer⟩).1 ≠ .quarantined why
  | delete pk c signer => ∀ why, (settleDelete spec schema s pk c signer).1.row ≠ .quarantined why

/-- Actions in order. -/
def runActions (s : Store) (as : List Action) : Store :=
  as.foldl (apply sha256 spec schema) s

/-- `P` holds of every statement in the store it is settled in. -/
def Along (P : Store → Action → Prop) (s : Store) : List Action → Prop
  | [] => True
  | a :: as => P s a ∧ Along P (a.apply sha256 spec schema s) as

instance Along.decidable (P : Store → Action → Prop) [∀ s a, Decidable (P s a)] (s : Store) :
    (as : List Action) → Decidable (Along sha256 spec schema P s as)
  | [] => .isTrue trivial
  | a :: as =>
    haveI := Along.decidable P (a.apply sha256 spec schema s) as
    inferInstanceAs (Decidable (_ ∧ _))

/-- No constraint stops any of the statements, settled in order. -/
def AllPass (s : Store) (as : List Action) : Prop :=
  Along sha256 spec schema (fun s a => a.Passes sha256 spec schema s) s as

theorem runActions_append (s : Store) (as bs : List Action) :
    runActions sha256 spec schema s (as ++ bs) =
      runActions sha256 spec schema (runActions sha256 spec schema s as) bs :=
  foldl_append

variable {sha256 spec schema} in
theorem Along.imp {P Q : Store → Action → Prop} (h : Along sha256 spec schema P s as)
    (hPQ : ∀ s, ∀ a ∈ as, P s a → Q s a) : Along sha256 spec schema Q s as := by
  induction as generalizing s with
  | nil => trivial
  | cons a as ih =>
    exact ⟨hPQ s a mem_cons_self h.1, ih h.2 fun s b hb => hPQ s b (mem_cons_of_mem _ hb)⟩

theorem allPass_append (s : Store) (as bs : List Action) :
    AllPass sha256 spec schema s (as ++ bs) ↔
      AllPass sha256 spec schema s as ∧
        AllPass sha256 spec schema (runActions sha256 spec schema s as) bs := by
  induction as generalizing s with
  | nil => simp [AllPass, Along, runActions]
  | cons a as ih => simp_all [AllPass, Along, runActions, and_assoc]

variable (repoId : String)

/-- The payload leaves the decision to the row, and states nothing at or above the entry's lamport.
    -/
def RowEntry.Admitted (e : RowEntry) : Prop :=
  (∃ known, payloadVerdict spec repoId e.op = .rowDecides known) ∧
    ∀ n ∈ e.op.statedLamports, n < e.opMeta.lamport

/-- One entry on the table. -/
def applyEntry (s : Store) (e : RowEntry) : ApplyOutcome × Store :=
  applyRowOpOnStream sha256 spec schema repoId s e.op e.opMeta

/-- Entries in order. -/
def applyAll (s : Store) (es : List RowEntry) : Store :=
  es.foldl (fun s e => (applyEntry sha256 spec schema repoId s e).2) s

/-- No entry is quarantined when the list is applied in order. -/
def quarantineFree (s : Store) : List RowEntry → Bool
  | [] => true
  | e :: es =>
    !(applyEntry sha256 spec schema repoId s e).1.isQuarantined &&
      quarantineFree (applyEntry sha256 spec schema repoId s e).2 es

variable {sha256 spec schema repoId}

variable (sha256) in
theorem restateStep_eq (m : EntryMeta) (b : BatchState) (d : StatedDelete) :
    (restateStep spec schema m b d).store =
        (delete d.pk ⟨d.lamport, d.device⟩ m.clock).apply sha256 spec schema b.store ∧
      ((restateStep spec schema m b d).quarantined = none → b.quarantined = none ∧
        (delete d.pk ⟨d.lamport, d.device⟩ m.clock).Passes sha256 spec schema b.store) := by
  unfold restateStep apply Passes
  simp only
  split
  · exact ⟨rfl, fun h => by simp at h⟩
  · exact ⟨rfl, fun h => ⟨h, fun why e => by simp_all⟩⟩
  · exact ⟨rfl, fun h => ⟨h, fun why e => by simp_all⟩⟩

theorem restate_batch (m : EntryMeta) (deletes : List StatedDelete) (b : BatchState) :
    (deletes.foldl (restateStep spec schema m) b).store =
        runActions sha256 spec schema b.store
          (deletes.map fun d => .delete d.pk ⟨d.lamport, d.device⟩ m.clock) ∧
      ((deletes.foldl (restateStep spec schema m) b).quarantined = none →
        b.quarantined = none ∧ AllPass sha256 spec schema b.store
          (deletes.map fun d => .delete d.pk ⟨d.lamport, d.device⟩ m.clock)) := by
  induction deletes generalizing b with
  | nil => exact ⟨rfl, fun h => ⟨h, trivial⟩⟩
  | cons d ds ih =>
    obtain ⟨hstore, hpass⟩ := ih (restateStep spec schema m b d)
    obtain ⟨hone, hok⟩ := restateStep_eq sha256 m b d
    rw [hone] at hstore hpass
    refine ⟨hstore, fun h => ?_⟩
    obtain ⟨hq, htail⟩ := hpass h
    obtain ⟨hb, hd⟩ := hok hq
    exact ⟨hb, hd, htail⟩

variable (sha256 schema) in
theorem restateRowsStep_eq {v : Nat} (m : EntryMeta) (b : BatchState) {row : StatedRow}
    (hk : projectCells spec v row.cells = .complete known) :
    (restateRowsStep sha256 spec schema v m b row).store =
        (write row.pk ⟨row.lamport, row.device⟩ known m.clock).apply sha256 spec schema b.store ∧
      ((restateRowsStep sha256 spec schema v m b row).quarantined = none →
        b.quarantined = none ∧
          (write row.pk ⟨row.lamport, row.device⟩ known m.clock).Passes sha256 spec schema
            b.store) := by
  unfold restateRowsStep apply Passes
  rw [hk]
  simp only
  split
  · exact ⟨rfl, fun h => ⟨h, fun why e => by simp_all⟩⟩
  · exact ⟨rfl, fun h => ⟨h, fun why e => by simp_all⟩⟩
  · exact ⟨rfl, fun h => by simp at h⟩

/-- The writes a live-row restatement carries, as statements. -/
def statedWrites (spec : TableSpec) (v : Nat) (m : EntryMeta) (rows : List StatedRow) :
    List Action :=
  (rows.filterMap fun row =>
    match projectCells spec v row.cells with
    | .complete known => some (row.pk, (⟨row.lamport, row.device⟩ : RowClock), known)
    | _ => none).map fun w => .write w.1 w.2.1 w.2.2 m.clock

theorem restateRows_batch (v : Nat) (m : EntryMeta) (rows : List StatedRow)
    (hproj : ∀ row ∈ rows, ∃ k, projectCells spec v row.cells = .complete k) (b : BatchState) :
    (rows.foldl (restateRowsStep sha256 spec schema v m) b).store =
        runActions sha256 spec schema b.store (statedWrites spec v m rows) ∧
      ((rows.foldl (restateRowsStep sha256 spec schema v m) b).quarantined = none →
        b.quarantined = none ∧ AllPass sha256 spec schema b.store (statedWrites spec v m rows)) := by
  induction rows generalizing b with
  | nil => exact ⟨rfl, fun h => ⟨h, trivial⟩⟩
  | cons row rows ih =>
    obtain ⟨known, hk⟩ := hproj row mem_cons_self
    have hstep := restateRowsStep_eq sha256 schema m b hk
    obtain ⟨hstore, hpass⟩ := ih (forall_mem_cons.mp hproj).2
      (restateRowsStep sha256 spec schema v m b row)
    have hcons : statedWrites spec v m (row :: rows) =
        .write row.pk ⟨row.lamport, row.device⟩ known m.clock :: statedWrites spec v m rows := by
      simp [statedWrites, hk]
    rw [hcons]
    rw [hstep.1] at hstore hpass
    refine ⟨hstore, fun h => ?_⟩
    obtain ⟨hq, htail⟩ := hpass h
    obtain ⟨hb, hw⟩ := hstep.2 hq
    exact ⟨hb, hw, htail⟩

variable (spec) in
theorem statedAbove_eq_none_iff (op : RowOp) (m : EntryMeta) :
    statedAbove spec op m = none ↔ ∀ n ∈ op.statedLamports, n < m.lamport := by
  cases op with
  | upsert | remove => simp [statedAbove, RowOp.statedLamports]
  | restate t v deletes => simp [statedAbove, RowOp.statedLamports]
  | restateRows t v rows => simp [statedAbove, RowOp.statedLamports]

theorem outcome_store (b : BatchState) : b.outcome.2 = b.store := by
  unfold BatchState.outcome
  split <;> rfl

theorem quarantined_of_outcome (h : b.outcome.1.isQuarantined = false) : b.quarantined = none := by
  unfold BatchState.outcome at h
  split at h
  · cases h
  · assumption

variable (sha256 schema) in
/-- **Applying an admitted entry is settling what it states**, and an entry that is not
    quarantined has met no constraint. -/
theorem applyEntry_eq (s : Store) (he : e.Admitted spec repoId) :
    (applyEntry sha256 spec schema repoId s e).2 =
        runActions sha256 spec schema s (e.actions spec) ∧
      ((applyEntry sha256 spec schema repoId s e).1.isQuarantined = false →
        AllPass sha256 spec schema s (e.actions spec)) := by
  obtain ⟨op, m, haddr⟩ := e
  obtain ⟨⟨known, hv⟩, hst⟩ := he
  have hknown := payloadVerdict_known hv
  simp only [applyEntry, applyRowOpOnStream, (statedAbove_eq_none_iff spec op m).mpr hst, hv]
  cases op with
  | upsert t v pk cells =>
    obtain ⟨k, rfl, hk⟩ := hknown
    simp only [RowEntry.actions, RowEntry.writes, RowEntry.deletes, hk, RowEntry.clock,
      map_cons, map_nil, append_nil, applyUpsert]
    split
    · exact ⟨rfl, fun _ => ⟨fun why e => by simp_all, trivial⟩⟩
    · exact ⟨rfl, fun _ => ⟨fun why e => by simp_all, trivial⟩⟩
    · exact ⟨rfl, fun h => by cases h⟩
  | remove t v pk =>
    obtain rfl : known = none := hknown
    simp only [RowEntry.actions, RowEntry.writes, RowEntry.deletes, RowEntry.clock,
      map_cons, map_nil, nil_append, applyRemove]
    split
    · exact ⟨rfl, fun h => by cases h⟩
    · exact ⟨rfl, fun _ => ⟨fun why e => by simp_all, trivial⟩⟩
    · exact ⟨rfl, fun _ => ⟨fun why e => by simp_all, trivial⟩⟩
  | restate t v deletes =>
    obtain rfl : known = none := hknown
    obtain ⟨hstore, hpass⟩ : _ ∧ _ := restate_batch m deletes ⟨false, none, s⟩
    have hact : (RowEntry.mk (.restate t v deletes) m haddr).actions spec =
        deletes.map fun d => .delete d.pk ⟨d.lamport, d.device⟩ m.clock := by
      simp [RowEntry.actions, RowEntry.writes, RowEntry.deletes, RowEntry.clock]
    rw [hact]
    exact ⟨(outcome_store _).trans hstore, fun h => (hpass (quarantined_of_outcome h)).2⟩
  | restateRows t v rows =>
    obtain ⟨rfl, hproj⟩ := hknown
    obtain ⟨hstore, hpass⟩ := restateRows_batch v m rows hproj ⟨false, none, s⟩
    have hact : (RowEntry.mk (.restateRows t v rows) m haddr).actions spec =
        statedWrites spec v m rows := by
      simp only [RowEntry.actions, RowEntry.deletes, map_nil, append_nil]
      rfl
    rw [hact]
    exact ⟨(outcome_store _).trans hstore, fun h => (hpass (quarantined_of_outcome h)).2⟩

/-- Neither pending nor quarantined. -/
def ApplyOutcome.settled : ApplyOutcome → Bool
  | .applied | .superseded => true
  | .quarantined .. | .unprojectable _ => false

theorem admitted_of_settled (h : (applyEntry sha256 spec schema repoId s e).1.settled = true) :
    e.Admitted spec repoId ∧ (applyEntry sha256 spec schema repoId s e).1.isQuarantined = false := by
  refine ⟨?_, ?_⟩
  · unfold applyEntry applyRowOpOnStream at h
    split at h
    · cases h
    rename_i hst
    refine ⟨?_, (statedAbove_eq_none_iff spec e.op e.opMeta).mp hst⟩
    split at h
    · cases h
    · cases h
    · rename_i known hv
      exact ⟨known, hv⟩
  · cases ho : (applyEntry sha256 spec schema repoId s e).1 with
    | quarantined why changed => rw [ho] at h; cases h
    | applied | superseded | unprojectable => rfl

theorem fits_of_admitted (he : e.Admitted spec repoId) (ha : a ∈ e.actions spec) : a.Fits spec := by
  obtain ⟨⟨known, hv⟩, -⟩ := he
  have hname : ∀ pk ∈ e.op.pks, RowName spec pk := fun pk hpk =>
    ⟨wellTyped_of_payloadVerdict hv hpk, e.addressable pk hpk⟩
  obtain ⟨op, m, haddr⟩ := e
  simp only [actions, mem_append, mem_map] at ha
  rcases ha with ⟨w, hw, rfl⟩ | ⟨d, hd, rfl⟩
  · cases op with
    | upsert t v pk cells =>
      simp only [writes] at hw
      split at hw
      · rename_i k hk
        obtain rfl := mem_singleton.mp hw
        exact ⟨hname pk (by simp [RowOp.pks]), complete_of_projectCells hk⟩
      · cases hw
    | restateRows t v rows =>
      simp only [writes, mem_filterMap] at hw
      obtain ⟨row, hrow, hw⟩ := hw
      split at hw
      · rename_i k hk
        cases hw
        exact ⟨hname row.pk (mem_map_of_mem hrow), complete_of_projectCells hk⟩
      · cases hw
    | remove | restate => cases hw
  · cases op with
    | remove t v pk =>
      obtain rfl := mem_singleton.mp hd
      exact hname pk (by simp [RowOp.pks])
    | restate t v deletes =>
      obtain ⟨d', hd', rfl⟩ := mem_map.mp hd
      exact hname d'.pk (mem_map_of_mem hd')
    | upsert | restateRows => cases hd

theorem applyAll_eq (s : Store) (hes : ∀ e ∈ es, e.Admitted spec repoId)
    (hq : quarantineFree sha256 spec schema repoId s es = true) :
    applyAll sha256 spec schema repoId s es =
        runActions sha256 spec schema s (es.flatMap (actions spec)) ∧
      AllPass sha256 spec schema s (es.flatMap (actions spec)) := by
  induction es generalizing s with
  | nil => exact ⟨rfl, trivial⟩
  | cons e es ih =>
    simp only [quarantineFree, Bool.and_eq_true, Bool.not_eq_true'] at hq
    obtain ⟨hstore, hpass⟩ := applyEntry_eq sha256 schema s (hes e mem_cons_self)
    obtain ⟨hrun, hall⟩ := ih _ (fun e' he' => hes e' (mem_cons_of_mem _ he')) hq.2
    rw [hstore] at hrun hall
    rw [flatMap_cons, runActions_append, allPass_append]
    refine ⟨?_, hpass hq.1, hall⟩
    rw [← hrun, ← hstore]
    rfl

/-! ## 3. On each row, a run of the cell -/

/-- What the statements say about the row `pk`. -/
def eventsAt (pk : List TypedValue) (as : List Action) : List (Event RowClock Known) :=
  (as.filter fun a => a.pk = pk).map event

theorem eventsAt_append_self (as : List Action) (a : Action) :
    eventsAt a.pk (as ++ [a]) = eventsAt a.pk as ++ [a.event] := by
  simp [eventsAt]

theorem eventsAt_append_of_ne (as : List Action) (h : pk ≠ a.pk) :
    eventsAt pk (as ++ [a]) = eventsAt pk as := by
  simp [eventsAt, h.symm]

variable (sha256 spec schema) in
/-- The rows of the store are exactly the rows the statements name, each in its cell's state. -/
structure Folded (as : List Action) (s : Store) : Prop where
  agrees : ∀ pk, RowName spec pk → Agrees sha256 spec schema s pk (run (eventsAt pk as))
  otherKeys : ∀ key, (∀ pk, RowName spec pk → key ≠ rowPkString pk) →
    s.rowClocks key = none ∧ s.rowTombstones key = none ∧ s.publishedRows key = none
  otherRows : ∀ k, (∀ pk, RowName spec pk → k ≠ pkParams pk) → s.rows k = none

theorem folded_empty : Folded sha256 spec schema [] empty where
  agrees pk _ := ⟨rfl, rfl, rfl, rfl, fun _ h => by cases h⟩
  otherKeys _ _ := ⟨rfl, rfl, rfl⟩
  otherRows _ _ := rfl

theorem Action.Fits.rowName (h : a.Fits spec) : RowName spec a.pk := by
  cases a with
  | write => exact h.1
  | delete => exact h

theorem apply_sameOutside (s : Store) (a : Action) :
    SameOutside a.pk s (a.apply sha256 spec schema s) := by
  cases a with
  | write pk c known signer => exact settleRow_sameOutside s ⟨pk, known, c, signer⟩
  | delete pk c signer => exact settleDelete_sameOutside s pk c signer

theorem agrees_apply {cell : RowCell} (hfit : a.Fits spec) (hpass : a.Passes sha256 spec schema s)
    (h : Agrees sha256 spec schema s a.pk cell) :
    Agrees sha256 spec schema (a.apply sha256 spec schema s) a.pk (cell.step a.event) := by
  cases a with
  | write pk c known signer =>
    exact agrees_settleRow (w := ⟨pk, known, c, signer⟩) h rfl hfit.2 hpass
  | delete pk c signer => exact agrees_settleDelete h hpass

theorem Folded.step (h : Folded sha256 spec schema as s) (hfit : a.Fits spec)
    (hpass : a.Passes sha256 spec schema s) :
    Folded sha256 spec schema (as ++ [a]) (a.apply sha256 spec schema s) where
  agrees pk hpk := by
    by_cases hpa : pk = a.pk
    · subst hpa
      rw [eventsAt_append_self, run_append]
      exact agrees_apply hfit hpass (h.agrees a.pk hpk)
    · rw [eventsAt_append_of_ne as hpa]
      exact (h.agrees pk hpk).frame (apply_sameOutside s a) hpk hfit.rowName hpa
  otherKeys key hkey := by
    have hout : SameOutside a.pk s (a.apply sha256 spec schema s) := apply_sameOutside s a
    have hne := hkey a.pk hfit.rowName
    rw [hout.clock key hne, hout.tomb key hne, hout.published key hne]
    exact h.otherKeys key hkey
  otherRows k hk := by
    have hout : SameOutside a.pk s (a.apply sha256 spec schema s) := apply_sameOutside s a
    rw [hout.row k (hk a.pk hfit.rowName)]
    exact h.otherRows k hk

theorem Folded.run (h : Folded sha256 spec schema as s) (hfit : ∀ b ∈ bs, b.Fits spec)
    (hpass : AllPass sha256 spec schema s bs) :
    Folded sha256 spec schema (as ++ bs) (runActions sha256 spec schema s bs) := by
  induction bs generalizing as s with
  | nil => simpa [runActions] using h
  | cons b bs ih =>
    have hstep := h.step (hfit b mem_cons_self) hpass.1
    have hrun := ih hstep (fun b' hb' => hfit b' (mem_cons_of_mem _ hb')) hpass.2
    rwa [append_assoc] at hrun

theorem rowName_cases (key : String) :
    (∃ pk, RowName spec pk ∧ key = rowPkString pk) ∨
      ∀ pk, RowName spec pk → key ≠ rowPkString pk := by
  by_cases hk : ∃ pk, RowName spec pk ∧ key = rowPkString pk
  · exact .inl hk
  · exact .inr fun pk hpk e => hk ⟨pk, hpk, e⟩

theorem Folded.ext_live (h : Folded sha256 spec schema as s) (h' : Folded sha256 spec schema bs t)
    (hlive : ∀ pk, RowName spec pk → (Lib.Lww.Cell.run (eventsAt pk bs)).live =
      (Lib.Lww.Cell.run (eventsAt pk as)).live) :
    t.rows = s.rows ∧ t.rowClocks = s.rowClocks ∧ t.publishedRows = s.publishedRows := by
  refine ⟨?_, ?_, ?_⟩
  · funext k
    by_cases hk : ∃ pk, RowName spec pk ∧ k = pkParams pk
    · obtain ⟨pk, hpk, rfl⟩ := hk
      rw [(h.agrees pk hpk).row, (h'.agrees pk hpk).row, hlive pk hpk]
    · have hno : ∀ pk, RowName spec pk → k ≠ pkParams pk := fun pk hpk e => hk ⟨pk, hpk, e⟩
      rw [h.otherRows k hno, h'.otherRows k hno]
  · funext key
    rcases rowName_cases key with ⟨pk, hpk, rfl⟩ | hno
    · rw [(h.agrees pk hpk).clock, (h'.agrees pk hpk).clock, hlive pk hpk]
    · rw [(h.otherKeys key hno).1, (h'.otherKeys key hno).1]
  · funext key
    rcases rowName_cases key with ⟨pk, hpk, rfl⟩ | hno
    · rw [(h.agrees pk hpk).published, (h'.agrees pk hpk).published, hlive pk hpk]
    · rw [(h.otherKeys key hno).2.2, (h'.otherKeys key hno).2.2]

theorem Folded.ext (h : Folded sha256 spec schema as s) (h' : Folded sha256 spec schema bs t)
    (hcell : ∀ pk, RowName spec pk →
      Lib.Lww.Cell.run (eventsAt pk bs) = Lib.Lww.Cell.run (eventsAt pk as)) :
    t.rows = s.rows ∧ t.rowClocks = s.rowClocks ∧ t.rowTombstones = s.rowTombstones ∧
      t.publishedRows = s.publishedRows := by
  obtain ⟨hrows, hclocks, hpublished⟩ := h.ext_live h' fun pk hpk => by rw [hcell pk hpk]
  refine ⟨hrows, hclocks, funext fun key => ?_, hpublished⟩
  rcases rowName_cases key with ⟨pk, hpk, rfl⟩ | hno
  · have ht := (h'.agrees pk hpk).tomb
    rw [hcell pk hpk] at ht
    exact toBot_injective (ht.trans (h.agrees pk hpk).tomb.symm)
  · rw [(h.otherKeys key hno).2.1, (h'.otherKeys key hno).2.1]

/-! ## 4. Convergence -/

variable (spec) in
/-- The greatest write of the row `pk` among the entries, and its after-image. -/
def GreatestWrite (l : List RowEntry) (pk : List TypedValue) (c : RowClock) (k : Known) : Prop :=
  (∃ e ∈ l, (pk, c, k) ∈ e.writes spec) ∧ ∀ e ∈ l, ∀ c' k', (pk, c', k') ∈ e.writes spec → c' ≤ c

/-- The greatest delete of the row `pk` among the entries. -/
def GreatestDelete (l : List RowEntry) (pk : List TypedValue) (d : RowClock) : Prop :=
  (∃ e ∈ l, (pk, d) ∈ e.deletes) ∧ ∀ e ∈ l, ∀ d', (pk, d') ∈ e.deletes → d' ≤ d

variable (sha256 spec schema) in
/-- The row is held, with the after-image `k` written at `c`. -/
structure Live (s : Store) (pk : List TypedValue) (c : RowClock) (k : Known) : Prop where
  row : s.rows (pkParams pk) = some (insertRow spec schema pk k)
  clock : s.rowClocks (rowPkString pk) = some c
  published : s.publishedRows (rowPkString pk) =
    some (cellsHash sha256 (knownCells k), spec.specVersion)

/-- No row, no clock, nothing published. -/
structure Absent (s : Store) (pk : List TypedValue) : Prop where
  row : s.rows (pkParams pk) = none
  clock : s.rowClocks (rowPkString pk) = none
  published : s.publishedRows (rowPkString pk) = none

variable (sha256 spec schema) in
/-- The store holds of the row what its greatest write and its greatest delete say. -/
structure HoldsWinner (l : List RowEntry) (s : Store) (pk : List TypedValue) : Prop where
  tombstone : ∀ d, s.rowTombstones (rowPkString pk) = some d ↔ GreatestDelete l pk d
  live : ∀ c k, GreatestWrite spec l pk c k → (∀ d, GreatestDelete l pk d → c.beats d) →
    Live sha256 spec schema s pk c k
  dead : (∀ c k, GreatestWrite spec l pk c k → ∃ d, GreatestDelete l pk d ∧ ¬ c.beats d) → Absent s pk

theorem mem_statements {ev : Event RowClock Known} :
    ev ∈ eventsAt pk (l.flatMap (actions spec)) ↔
      ∃ e ∈ l, ∃ a ∈ e.actions spec, a.pk = pk ∧ a.event = ev := by
  simp only [eventsAt, mem_map, mem_filter, mem_flatMap, decide_eq_true_eq]
  constructor
  · rintro ⟨a, ⟨⟨e, he, ha⟩, hpk⟩, hev⟩
    exact ⟨e, he, a, ha, hpk, hev⟩
  · rintro ⟨e, he, a, ha, hpk, hev⟩
    exact ⟨a, ⟨⟨e, he, ha⟩, hpk⟩, hev⟩

theorem write_mem_statements :
    Event.write c k ∈ eventsAt pk (l.flatMap (actions spec)) ↔
      ∃ e ∈ l, (pk, c, k) ∈ e.writes spec := by
  rw [mem_statements]
  refine exists_congr fun e => and_congr_right fun _ =>
    ⟨?_, fun hw => ⟨_, mem_append_left _ (mem_map_of_mem hw), rfl, rfl⟩⟩
  rintro ⟨a, ha, rfl, hev⟩
  rcases mem_append.mp ha with ha | ha
  · obtain ⟨w, hw, rfl⟩ := mem_map.mp ha
    cases hev
    exact hw
  · obtain ⟨d, -, rfl⟩ := mem_map.mp ha
    cases hev

theorem delete_mem_statements :
    Event.delete d ∈ eventsAt pk (l.flatMap (actions spec)) ↔ ∃ e ∈ l, (pk, d) ∈ e.deletes := by
  rw [mem_statements]
  refine exists_congr fun e => and_congr_right fun _ =>
    ⟨?_, fun hd => ⟨_, mem_append_right _ (mem_map_of_mem hd), rfl, rfl⟩⟩
  rintro ⟨a, ha, rfl, hev⟩
  rcases mem_append.mp ha with ha | ha
  · obtain ⟨w, -, rfl⟩ := mem_map.mp ha
    cases hev
  · obtain ⟨x, hx, rfl⟩ := mem_map.mp ha
    cases hev
    exact hx

theorem mem_statements_iff (hxy : ∀ e, e ∈ xs ↔ e ∈ ys) (pk : List TypedValue)
    (ev : Event RowClock Known) :
    ev ∈ eventsAt pk (xs.flatMap (actions spec)) ↔ ev ∈ eventsAt pk (ys.flatMap (actions spec)) := by
  simp only [mem_statements, hxy]

variable (spec) in
theorem greatestDelete_iff :
    GreatestDelete l pk d ↔ Lib.Lww.greatestDelete (eventsAt pk (l.flatMap (actions spec))) = d := by
  rw [Lib.Lww.greatestDelete_eq_iff]
  simp only [delete_mem_statements]
  exact and_congr_right fun _ => ⟨fun h d' ⟨e, he, hd⟩ => h e he d' hd,
    fun h e he d' hd => h d' ⟨e, he, hd⟩⟩

theorem greatestWrite_iff :
    GreatestWrite spec l pk c k ↔
      Event.write c k ∈ eventsAt pk (l.flatMap (actions spec)) ∧
        Lib.Lww.greatestWrite (eventsAt pk (l.flatMap (actions spec))) = c := by
  rw [Lib.Lww.greatestWrite_eq_iff]
  simp only [write_mem_statements]
  exact ⟨fun ⟨hw, h⟩ => ⟨hw, ⟨k, hw⟩, fun c' k' ⟨e, he, hw'⟩ => h e he c' k' hw'⟩,
    fun ⟨hw, _, h⟩ => ⟨hw, fun e he c' k' hw' => h c' k' ⟨e, he, hw'⟩⟩⟩

theorem Folded.holdsWinner (h : Folded sha256 spec schema (l.flatMap (actions spec)) s)
    (hpk : RowName spec pk) (hcons : Lib.Lww.Consistent (eventsAt pk (l.flatMap (actions spec)))) :
    HoldsWinner sha256 spec schema l s pk := by
  have hagree := h.agrees pk hpk
  have hset := Lib.Lww.run_settled (eventsAt pk (l.flatMap (actions spec)))
  refine ⟨fun d => ?_, fun c k hw hbeat => ?_, fun hlost => ?_⟩
  · rw [greatestDelete_iff spec, ← hset.tomb, ← hagree.tomb]
    exact toBot_injective.eq_iff.symm
  · obtain ⟨hmem, hgreatest⟩ := greatestWrite_iff.mp hw
    have hlive : (Lib.Lww.Cell.run (eventsAt pk (l.flatMap (RowEntry.actions spec)))).live =
        some (c, k) := by
      cases hl : (Lib.Lww.Cell.run (eventsAt pk (l.flatMap (RowEntry.actions spec)))).live with
      | none =>
        have hle := hset.dead hl
        rw [hgreatest] at hle
        have hne : Lib.Lww.greatestDelete (eventsAt pk (l.flatMap (actions spec))) ≠ ⊥ :=
          fun hbot => absurd (hle.trans hbot.le) (not_le.mpr (WithBot.bot_lt_coe c))
        obtain ⟨d, hd⟩ := WithBot.ne_bot_iff_exists.mp hne
        have hlt := (RowClock.beats_iff c d).mp (hbeat d ((greatestDelete_iff spec).mpr hd.symm))
        rw [← hd] at hle
        exact absurd (WithBot.coe_le_coe.mp hle) (not_le.mpr hlt)
      | some cv =>
        obtain ⟨c', k'⟩ := cv
        obtain ⟨hmem', hgreatest', -⟩ := hset.live c' k' hl
        obtain rfl : c' = c := WithBot.coe_injective (hgreatest'.symm.trans hgreatest)
        rw [hcons c' k k' hmem hmem']
    exact ⟨by rw [hagree.row, hlive]; rfl, by rw [hagree.clock, hlive]; rfl,
      by rw [hagree.published, hlive]; rfl⟩
  · have hlive : (Lib.Lww.Cell.run (eventsAt pk (l.flatMap (RowEntry.actions spec)))).live =
        none := by
      by_contra hne
      obtain ⟨⟨c, k⟩, hl⟩ := Option.ne_none_iff_exists'.mp hne
      obtain ⟨hmem, hgreatest, hlt⟩ := hset.live c k hl
      obtain ⟨d, hd, hnot⟩ := hlost c k (greatestWrite_iff.mpr ⟨hmem, hgreatest⟩)
      rw [(greatestDelete_iff spec).mp hd] at hlt
      exact hnot ((RowClock.beats_iff c d).mpr (WithBot.coe_lt_coe.mp hlt))
    exact ⟨by rw [hagree.row, hlive]; rfl, by rw [hagree.clock, hlive]; rfl,
      by rw [hagree.published, hlive]; rfl⟩

variable (spec) in
/-- Writes of one row stated at one identity project to one after-image. -/
def WritesAgree (l : List RowEntry) : Prop :=
  ∀ e ∈ l, ∀ e' ∈ l, ∀ pk c k k', (pk, c, k) ∈ e.writes spec → (pk, c, k') ∈ e'.writes spec → k = k'

instance (l : List RowEntry) : Decidable (WritesAgree spec l) :=
  decidable_of_iff (∀ w ∈ l.flatMap (writes spec), ∀ w' ∈ l.flatMap (writes spec),
      w.1 = w'.1 → w.2.1 = w'.2.1 → w.2.2 = w'.2.2)
    ⟨fun h e he e' he' pk c k k' hw hw' => h (pk, c, k) (mem_flatMap.mpr ⟨e, he, hw⟩)
        (pk, c, k') (mem_flatMap.mpr ⟨e', he', hw'⟩) rfl rfl,
      fun h w hw w' hw' h1 h2 => by
        obtain ⟨e, he, hw⟩ := mem_flatMap.mp hw
        obtain ⟨e', he', hw'⟩ := mem_flatMap.mp hw'
        obtain ⟨pk, c, k⟩ := w
        obtain ⟨pk', c', k'⟩ := w'
        obtain rfl : pk = pk' := h1
        obtain rfl : c = c' := h2
        exact h e he e' he' pk c k k' hw hw'⟩

theorem consistent_of_writesAgree (h : WritesAgree spec l) (pk : List TypedValue) :
    Lib.Lww.Consistent (eventsAt pk (l.flatMap (actions spec))) := by
  intro c k k' hk hk'
  obtain ⟨e, he, hw⟩ := write_mem_statements.mp hk
  obtain ⟨e', he', hw'⟩ := write_mem_statements.mp hk'
  exact h e he e' he' pk c k k' hw hw'

theorem folded_applyAll (hadm : ∀ e ∈ l, e.Admitted spec repoId)
    (hq : quarantineFree sha256 spec schema repoId empty l = true) :
    Folded sha256 spec schema (l.flatMap (actions spec))
      (applyAll sha256 spec schema repoId empty l) := by
  obtain ⟨hrun, hpass⟩ := applyAll_eq empty hadm hq
  rw [hrun]
  refine folded_empty.run (fun a ha => ?_) hpass
  obtain ⟨e, he, hae⟩ := mem_flatMap.mp ha
  exact fits_of_admitted (hadm e he) hae

/-- **Whole-row last-writer-wins convergence.** Two lists of the same entries, in whatever order and
    however often repeated, fold to the same rows, clocks, tombstones and published hashes, and each
    row is the one its greatest write and its greatest delete say. -/
theorem applyAll_converges (sha256 : Lib.Cbor.Bytes → Bytes32) (spec : TableSpec)
    (schema : Schema spec) (repoId : String) (l l' : List RowEntry)
    (hsame : ∀ e, e ∈ l ↔ e ∈ l') (hadm : ∀ e ∈ l, e.Admitted spec repoId)
    (hagree : WritesAgree spec l) (hq : quarantineFree sha256 spec schema repoId Store.empty l = true)
    (hq' : quarantineFree sha256 spec schema repoId Store.empty l' = true) :
    let s := applyAll sha256 spec schema repoId Store.empty l
    let t := applyAll sha256 spec schema repoId Store.empty l'
    (t.rows = s.rows ∧ t.rowClocks = s.rowClocks ∧ t.rowTombstones = s.rowTombstones ∧
        t.publishedRows = s.publishedRows) ∧
      ∀ pk, RowName spec pk → HoldsWinner sha256 spec schema l s pk := by
  have hs := folded_applyAll hadm hq
  have ht := folded_applyAll (fun e he => hadm e ((hsame e).mpr he)) hq'
  refine ⟨hs.ext ht fun pk _ => ?_, fun pk hpk =>
    hs.holdsWinner hpk (consistent_of_writesAgree hagree pk)⟩
  exact Lib.Lww.run_eq_of_mem_iff (consistent_of_writesAgree hagree pk) (mem_statements_iff hsame pk)

/-! ### A summary removed, then written again -/

/-- A table no constraint of which a row op can violate. -/
def unconstrained : Schema memoryNoteSummaries where
  columnDefault _ := .null
  writeViolates _ _ _ := false
  deleteViolates _ _ := false
  resetLocal := by decide
  resetDefault := by decide

/-- The row of the examples. -/
def summaryPk : List TypedValue := [.text "repo", .text "mem"]

theorem summaryPk_addressable : ∀ pk ∈ [summaryPk], PkAddressable pk := by decide

/-- Its cells. -/
def summaryCells (summary : String) : List Cell :=
  [⟨"content_hash", .text "h"⟩, ⟨"summary", .text summary⟩, ⟨"model_id", .null⟩,
    ⟨"prompt_version", .text "1"⟩, ⟨"generated_at_ms", .i64 0⟩]

/-- The device `device` writes the summary at `lamport`. -/
def writeSummary (lamport : Nat) (device : DeviceFingerprint) (summary : String)
    (h : lamport < maxEntryLamport) : RowEntry where
  op := .upsert "memory_note_summaries" 1 summaryPk (summaryCells summary)
  opMeta := ⟨⟨lamport, device⟩, h⟩
  addressable := summaryPk_addressable

def removeSummary (lamport : Nat) (device : DeviceFingerprint) (h : lamport < maxEntryLamport) :
    RowEntry where
  op := .remove "memory_note_summaries" 1 summaryPk
  opMeta := ⟨⟨lamport, device⟩, h⟩
  addressable := summaryPk_addressable

/-- The write beats the earlier delete, whichever arrives first. -/
theorem applyAll_converges_summary :
    let write := writeSummary 2 7 "s" (by decide)
    let remove := removeSummary 1 9 (by decide)
    let zero : Lib.Cbor.Bytes → Bytes32 := fun _ => 0
    let s := applyAll zero memoryNoteSummaries unconstrained "repo" empty [write, remove]
    let t := applyAll zero memoryNoteSummaries unconstrained "repo" empty [remove, write, remove]
    (t.rows = s.rows ∧ t.rowClocks = s.rowClocks ∧ t.rowTombstones = s.rowTombstones ∧
        t.publishedRows = s.publishedRows) ∧
      ∀ pk, RowName memoryNoteSummaries pk →
        HoldsWinner zero memoryNoteSummaries unconstrained [write, remove] s pk := by
  refine applyAll_converges _ _ _ _ _ _ ?_ ?_ ?_ (by decide +kernel) (by decide +kernel)
  · intro e
    simp only [mem_cons, not_mem_nil, or_false]
    tauto
  · intro e he
    simp only [mem_cons, not_mem_nil, or_false] at he
    rcases he with rfl | rfl
    · exact ⟨⟨_, rfl⟩, by decide⟩
    · exact ⟨⟨_, rfl⟩, by decide⟩
  · decide +kernel

end Run

end RagRat.TableSync
