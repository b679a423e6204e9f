/-
  File:      RagRat/TableSync/Guard.lean
  Subject:   UNSENT LOCAL WORK (`apply.rs`): what must be settled before a received op is handed to
             the applier.

  A raw local write does not advance its row's clock, so the applier cannot see it: the guard asks
  whether the row differs from what was last published of it, and parks the op if it does. The guard
  predicts what the applier would do; the applier then runs on the same store.

  * `unsentWorkOnRow`, `unsentWorkBlockingReplay` -- the row's verdict and the op's;
  * `preApply` -- the whole question, payload first;
  * `applyEntry_of_preApply`, `settleable_spares` -- what passes the guard, and what a parked
    restatement settles, leaves a row with unsent work alone.
-/
import RagRat.TableSync.Retention

namespace RagRat.TableSync

open List

variable {s s' s₀ : Store} {now : RowOp}

/-! ## 1. The row's winning write -/

/-- Why a row's winning write cannot be established. -/
inductive RowCause where
  | missingClock | missingEntry | undecodableEntry | unknownOperation
  | wrongOperation | wrongTable | wrongKey | unprojectableWinner
  deriving DecidableEq

/-- The op of the entry at a clock's identity. -/
def winningEntryOp (log : ChainLog) (clock : RowClock) : Except RowCause RowOp :=
  match log.entries.find? fun e => e.device = clock.device ∧ e.lamport = clock.lamport with
  | none => .error .missingEntry
  | some e =>
    match e.payload with
    | .known op _ => .ok op
    | .unknown => .error .unknownOperation
    | .undecodable => .error .undecodableEntry

/-- By lamport, then device. -/
def Statement.le (a b : Statement) : Bool :=
  a.lamport < b.lamport || (a.lamport == b.lamport && a.device ≤ b.device)

/-- A write re-stated at its identity by one of the row's carriers, as the upsert it was. -/
def restatedWinner (log : ChainLog) (s : Store) (table key : String) (clock : RowClock) :
    Option RowOp :=
  let carriers := (s.rowStatements.filter fun st => st.rowPk = key).insertionSort fun a b => a.le b
  carriers.findSome? fun st =>
    match winningEntryOp log st.signer with
    | .ok (.restateRows stated specVersion rows) =>
      if stated = table then
        (rows.find? fun r => r.lamport = clock.lamport ∧ r.device = clock.device ∧
          rowPkString r.pk = key).map fun r => .upsert stated specVersion r.pk r.cells
      else none
    | _ => none

/-- Whether the row is as it was published. -/
inductive StaleRow where
  | unchanged
  | locallyChanged
  | unknown (cause : RowCause)
  deriving DecidableEq

/-- The write the row's clock names, through a carrier where its own entry is not held. -/
def winnerOf (log : ChainLog) (s : Store) (table key : String) (clock : RowClock) :
    Except RowCause RowOp :=
  match winningEntryOp log clock with
  | .error .missingEntry =>
    match restatedWinner log s table key clock with
    | some op => .ok op
    | none => .error .missingEntry
  | other => other

section Guard

variable (sha256 : Lib.Cbor.Bytes → Bytes32) (spec : TableSpec) (log : ChainLog) (s : Store)

/-- Whether a row published under another column set was changed since. -/
def staleRowDisposition (pkVals : List TypedValue) (current : List Cell) : StaleRow :=
  let key := rowPkString pkVals
  match s.rowClocks key with
  | none => .unknown .missingClock
  | some clock =>
    match winnerOf log s spec.name key clock with
    | .error cause => .unknown cause
    | .ok (.upsert table specVersion pk cells) =>
      if table ≠ spec.name then .unknown .wrongTable
      else if pk ≠ pkVals then .unknown .wrongKey
      else
        match projectCells spec specVersion cells with
        | .complete projected =>
          if cellsHash sha256 (knownCells projected) = cellsHash sha256 current then .unchanged
          else .locallyChanged
        | .park _ | .quarantine _ => .unknown .unprojectableWinner
    | .ok _ => .unknown .wrongOperation

/-! ## 2. The verdict on a row and on an op -/

/-- A deferral that names work demonstrably unsent, not merely a row that cannot be judged. -/
def PendingReason.isProvenUnsentWork : PendingReason → Bool
  | .deferredUnsentEdit | .deferredUnsentDelete | .deferredUnreadableRow => true
  | _ => false

/-- The unsent local work on one row; `removing` says whether the op deletes the row outright. -/
def unsentWorkOnRow (pkVals : List TypedValue) (removing : Bool) : Option PendingReason :=
  if pkVals.length ≠ spec.pk.length then none
  else
    let published := s.publishedRows (rowPkString pkVals)
    match readSyncedCells spec s pkVals with
    | .absent => if published.isSome then some .deferredUnsentDelete else none
    | .unreadable _ => if removing then some .deferredUnreadableRow else none
    | .cells current =>
      match published with
      | some (hash, version) =>
        if version = spec.specVersion then
          if hash ≠ cellsHash sha256 current then some .deferredUnsentEdit else none
        else
          match staleRowDisposition sha256 spec log s pkVals current with
          | .locallyChanged => some .deferredUnsentEdit
          | .unknown _ => some .deferredUnresolvedWinner
          | .unchanged => none
      | none => some .deferredUnsentEdit

/-- A stated delete would remove its row: the row is there and its clock does not beat the delete.
    -/
def deleteWouldRemoveRow (d : StatedDelete) : Bool :=
  d.pk.length = spec.pk.length ∧ (s.rows (pkParams d.pk)).isSome ∧
    !s.survives (rowPkString d.pk) ⟨d.lamport, d.device⟩

/-- A stated row would take its row: its identity beats the tombstone and the clock. -/
def rowWouldTake (row : StatedRow) : Bool :=
  row.pk.length = spec.pk.length ∧
    !s.suppresses (rowPkString row.pk) ⟨row.lamport, row.device⟩ ∧
    s.unbeaten (rowPkString row.pk) ⟨row.lamport, row.device⟩ = none

/-- The blocker of a batch: proven work outranks a verdict that cannot be proven. -/
def batchBlocker (reasons : List PendingReason) : Option PendingReason :=
  match reasons.find? (·.isProvenUnsentWork) with
  | some reason => some reason
  | none => reasons.head?

/-- The unsent local work that blocks `op`; a restatement is asked about the rows it would touch
    only. -/
def unsentWorkBlockingReplay : RowOp → Option PendingReason
  | .upsert _ _ pk _ => unsentWorkOnRow sha256 spec log s pk false
  | .remove _ _ pk => unsentWorkOnRow sha256 spec log s pk true
  | .restate _ _ deletes =>
    batchBlocker (deletes.filterMap fun d =>
      if deleteWouldRemoveRow spec s d then unsentWorkOnRow sha256 spec log s d.pk true else none)
  | .restateRows _ _ rows =>
    batchBlocker (rows.filterMap fun r =>
      if rowWouldTake spec s r then unsentWorkOnRow sha256 spec log s r.pk false else none)

/-- The items of a restatement whose rows hold no unsent work, if they are a proper part. -/
def restateSettleableNow : RowOp → Option RowOp
  | .restate table specVersion deletes =>
    let settleable := deletes.filter fun d =>
      !deleteWouldRemoveRow spec s d || (unsentWorkOnRow sha256 spec log s d.pk true).isNone
    if settleable ≠ [] ∧ settleable.length < deletes.length then
      some (.restate table specVersion settleable)
    else none
  | .restateRows table specVersion rows =>
    let settleable := rows.filter fun r =>
      !rowWouldTake spec s r || (unsentWorkOnRow sha256 spec log s r.pk false).isNone
    if settleable ≠ [] ∧ settleable.length < rows.length then
      some (.restateRows table specVersion settleable)
    else none
  | .upsert .. | .remove .. => none

/-! ## 3. Before an apply -/

/-- How much doubt a caller acts on when a row's state cannot be established. -/
inductive RowDoubt where
  | deferOnAnyDoubt
  | deferExceptUnprovableRemoval
  | nothingUnsent
  deriving DecidableEq

/-- A device never enrolled as a writer holds nothing unsent. -/
def RowDoubt.forLocalDevice (everWriter : Bool) (whenWriter : RowDoubt) : RowDoubt :=
  if everWriter then whenWriter else .nothingUnsent

/-- Whether an op goes on to the applier. -/
inductive PreApply where
  | park (reason : PendingReason)
  | apply
  deriving DecidableEq

/-- The op deletes. -/
def RowOp.removes : RowOp → Bool
  | .remove .. | .restate .. => true
  | .upsert .. | .restateRows .. => false

/-- A restatement of something at or above its entry's lamport: terminal, whatever the row says. -/
def statesAtOrAbove (entryLamport : Nat) : RowOp → Bool
  | .restate _ _ deletes => deletes.any fun d => entryLamport ≤ d.lamport
  | .restateRows _ _ rows => rows.any fun r => entryLamport ≤ r.lamport
  | .upsert .. | .remove .. => false

/-- Whether `op` may be handed to the applier. -/
def preApply (repoId : String) (op : RowOp) (entryLamport : Nat) (doubt : RowDoubt) : PreApply :=
  match payloadVerdict spec repoId op with
  | .gap reason => .park reason
  | .rejected _ => .apply
  | .rowDecides _ =>
    if statesAtOrAbove entryLamport op then .apply
    else if doubt = .nothingUnsent then .apply
    else
      match unsentWorkBlockingReplay sha256 spec log s op with
      | none => .apply
      | some deferral =>
        if doubt = .deferExceptUnprovableRemoval ∧ !deferral.isProvenUnsentWork ∧ op.removes then
          .apply
        else .park deferral

end Guard

/-! ## 4. An op that takes no item of a row -/

section Spares

variable {sha256 : Lib.Cbor.Bytes → Bytes32} {spec : TableSpec} {schema : Schema spec}
  {log : ChainLog} {pk : List TypedValue} {op : RowOp} {a : Action} {repoId : String} {e : RowEntry}

/-- A live, readable row never published, or published at the current columns with another hash. -/
def Unsent (sha256 : Lib.Cbor.Bytes → Bytes32) (spec : TableSpec) (s : Store)
    (pk : List TypedValue) : Prop :=
  ∃ cells, readSyncedCells spec s pk = .cells cells ∧
    (s.publishedRows (rowPkString pk) = none ∨
      ∃ hash, s.publishedRows (rowPkString pk) = some (hash, spec.specVersion) ∧
        hash ≠ cellsHash sha256 cells)

/-- The op holds no item that would take the row `pk` on this store. -/
def Spares (spec : TableSpec) (s : Store) (pk : List TypedValue) : RowOp → Prop
  | .upsert _ _ pk' _ | .remove _ _ pk' => pk' ≠ pk
  | .restate _ _ deletes => ∀ d ∈ deletes, d.pk = pk → deleteWouldRemoveRow spec s d = false
  | .restateRows _ _ rows => ∀ r ∈ rows, r.pk = pk → rowWouldTake spec s r = false

theorem WellTyped.length (h : WellTyped spec pk) : pk.length = spec.pk.length :=
  h.length_eq.symm

theorem Unsent.row_isSome (h : Unsent sha256 spec s pk) : (s.rows (pkParams pk)).isSome := by
  obtain ⟨cells, hcells, -⟩ := h
  unfold readSyncedCells at hcells
  cases hrow : s.rows (pkParams pk) with
  | none =>
    rw [hrow] at hcells
    cases hcells
  | some row => rfl

theorem unsentWorkOnRow_of_unsent (hlen : pk.length = spec.pk.length)
    (h : Unsent sha256 spec s pk) (removing : Bool) :
    unsentWorkOnRow sha256 spec log s pk removing = some .deferredUnsentEdit := by
  obtain ⟨cells, hcells, hpub⟩ := h
  unfold unsentWorkOnRow
  rw [if_neg (not_not.mpr hlen), hcells]
  rcases hpub with hnone | ⟨hash, hsome, hne⟩
  · simp only [hnone]
  · simp only [hsome, if_true, if_pos hne]

theorem batchBlocker_proven {reasons : List PendingReason} {reason : PendingReason}
    (hmem : reason ∈ reasons) (hp : reason.isProvenUnsentWork = true) :
    ∃ r, batchBlocker reasons = some r ∧ r.isProvenUnsentWork = true := by
  unfold batchBlocker
  cases hfind : reasons.find? (·.isProvenUnsentWork) with
  | some r => exact ⟨r, rfl, find?_some hfind⟩
  | none => exact absurd hp (find?_eq_none.mp hfind reason hmem)

variable (log) in
theorem spares_or_blocked (hname : RowName spec pk) (h : Unsent sha256 spec s pk) (op : RowOp) :
    Spares spec s pk op ∨ ∃ r, unsentWorkBlockingReplay sha256 spec log s op = some r ∧
      r.isProvenUnsentWork = true := by
  have hwork : ∀ removing, unsentWorkOnRow sha256 spec log s pk removing =
      some .deferredUnsentEdit := unsentWorkOnRow_of_unsent hname.1.length h
  cases op with
  | upsert table v pk' cells =>
    by_cases heq : pk' = pk
    · exact .inr ⟨_, heq ▸ hwork false, rfl⟩
    · exact .inl heq
  | remove table v pk' =>
    by_cases heq : pk' = pk
    · exact .inr ⟨_, heq ▸ hwork true, rfl⟩
    · exact .inl heq
  | restate table v deletes =>
    by_cases hspares : ∀ d ∈ deletes, d.pk = pk → deleteWouldRemoveRow spec s d = false
    · exact .inl hspares
    push Not at hspares
    obtain ⟨d, hd, hdpk, htakes⟩ := hspares
    have hmem : PendingReason.deferredUnsentEdit ∈ deletes.filterMap fun d =>
        if deleteWouldRemoveRow spec s d then unsentWorkOnRow sha256 spec log s d.pk true
        else none := by
      refine mem_filterMap.mpr ⟨d, hd, ?_⟩
      rw [if_pos (by simpa using htakes), hdpk]
      exact hwork true
    exact .inr (batchBlocker_proven hmem rfl)
  | restateRows table v rows =>
    by_cases hspares : ∀ r ∈ rows, r.pk = pk → rowWouldTake spec s r = false
    · exact .inl hspares
    push Not at hspares
    obtain ⟨r, hr, hrpk, htakes⟩ := hspares
    have hmem : PendingReason.deferredUnsentEdit ∈ rows.filterMap fun r =>
        if rowWouldTake spec s r then unsentWorkOnRow sha256 spec log s r.pk false
        else none := by
      refine mem_filterMap.mpr ⟨r, hr, ?_⟩
      rw [if_pos (by simpa using htakes), hrpk]
      exact hwork false
    exact .inr (batchBlocker_proven hmem rfl)

theorem settleable_spares (hname : RowName spec pk) (h : Unsent sha256 spec s pk)
    (hnow : restateSettleableNow sha256 spec log s op = some now) : Spares spec s pk now := by
  have hwork : ∀ removing, unsentWorkOnRow sha256 spec log s pk removing =
      some .deferredUnsentEdit := unsentWorkOnRow_of_unsent hname.1.length h
  unfold restateSettleableNow at hnow
  split at hnow
  · simp only at hnow
    split_ifs at hnow
    cases hnow
    intro d hd hdpk
    have hkeep := (mem_filter.mp hd).2
    rw [hdpk, hwork true] at hkeep
    simpa using hkeep
  · simp only at hnow
    split_ifs at hnow
    cases hnow
    intro r hr hrpk
    have hkeep := (mem_filter.mp hr).2
    rw [hrpk, hwork false] at hkeep
    simpa using hkeep
  · cases hnow
  · cases hnow

/-! ## 5. The applier agrees with the prediction -/

/-- A write that does not beat the tombstone or the clock, or a delete the clock beats. -/
def Action.Misses (s : Store) : Action → Prop
  | .write pk c _ _ => ↑c ≤ toBot (s.rowTombstones (rowPkString pk)) ∨
      ↑c ≤ toBot (s.rowClocks (rowPkString pk))
  | .delete pk c _ => ↑c < toBot (s.rowClocks (rowPkString pk))

/-- The row `pk` stands as it was published, under the same clock and a tombstone no lower. -/
structure Stands (pk : List TypedValue) (s s' : Store) : Prop where
  row : s'.rows (pkParams pk) = s.rows (pkParams pk)
  published : s'.publishedRows (rowPkString pk) = s.publishedRows (rowPkString pk)
  clock : s'.rowClocks (rowPkString pk) = s.rowClocks (rowPkString pk)
  tomb : toBot (s.rowTombstones (rowPkString pk)) ≤ toBot (s'.rowTombstones (rowPkString pk))

theorem Stands.refl (pk : List TypedValue) (s : Store) : Stands pk s s := ⟨rfl, rfl, rfl, le_rfl⟩

theorem Stands.trans {s₁ s₂ s₃ : Store} (h : Stands pk s₁ s₂) (h' : Stands pk s₂ s₃) :
    Stands pk s₁ s₃ :=
  ⟨h'.row.trans h.row, h'.published.trans h.published, h'.clock.trans h.clock, h.tomb.trans h'.tomb⟩

theorem Unsent.of_stands (h : Unsent sha256 spec s pk) (hs : Stands pk s s') :
    Unsent sha256 spec s' pk := by
  obtain ⟨cells, hcells, hpub⟩ := h
  refine ⟨cells, ?_, ?_⟩
  · rw [← hcells]
    unfold readSyncedCells
    rw [hs.row]
  · rw [hs.published]
    exact hpub

theorem le_tombstoneAfter (s : Store) (key : String) (identity : RowClock) :
    toBot (s.rowTombstones key) ≤ toBot (tombstoneAfter s key identity) := by
  unfold tombstoneAfter
  split
  · rename_i hlt
    exact hlt.le
  · exact le_rfl

theorem Stands.apply_misses (h : Stands a.pk s₀ s) (hm : a.Misses s₀) :
    Stands a.pk s₀ (a.apply sha256 spec schema s) := by
  cases a with
  | write pk c known signer =>
    obtain ⟨r, hr, hset⟩ := settleRow_cases sha256 schema s ⟨pk, known, c, signer⟩
    have hs : Stands pk s₀ s := h
    simp only [Action.apply, hr]
    cases hset with
    | suppressed | lost | violated => exact hs
    | carried => exact ⟨hs.row, hs.published, hs.clock, hs.tomb⟩
    | won ht hc =>
      -- a win needs the identity above both, as they stand now
      rcases hm with hm | hm
      · exact absurd ht (not_lt.mpr (hm.trans hs.tomb))
      · rw [← hs.clock] at hm
        exact absurd hc (not_lt.mpr hm)
  | delete pk c signer =>
    obtain ⟨fate, moved, s', hr, hset⟩ := settleDelete_cases schema s pk c signer
    have hs : Stands pk s₀ s := h
    simp only [Action.apply, hr, Action.pk]
    cases hset with
    | kept =>
      refine ⟨hs.row, hs.published, hs.clock, hs.tomb.trans ?_⟩
      simp only [Function.update_self]
      exact le_tombstoneAfter s (rowPkString pk) c
    | violated => exact hs
    | won deleted hle =>
      have hlt : ↑c < toBot (s.rowClocks (rowPkString pk)) := by
        rw [hs.clock]
        exact hm
      exact absurd hle (not_le.mpr hlt)

theorem Stands.apply_other (h : Stands pk s₀ s) (hname : RowName spec pk) (ha : RowName spec a.pk)
    (hne : pk ≠ a.pk) : Stands pk s₀ (a.apply sha256 spec schema s) := by
  have hout : SameOutside a.pk s (a.apply sha256 spec schema s) := apply_sameOutside s a
  have hkey : rowPkString pk ≠ rowPkString a.pk := fun heq =>
    hne (rowPkString_inj hname.2 ha.2 heq)
  have hparams : pkParams pk ≠ pkParams a.pk := fun heq => hne (pkParams_inj hname.1 ha.1 heq)
  refine ⟨(hout.row _ hparams).trans h.row, (hout.published _ hkey).trans h.published,
    (hout.clock _ hkey).trans h.clock, ?_⟩
  rw [hout.tomb _ hkey]
  exact h.tomb

theorem runActions_stands (hname : RowName spec pk) {as : List Action}
    (hfit : ∀ a ∈ as, a.Fits spec) (hmiss : ∀ a ∈ as, a.pk = pk → a.Misses s) :
    Stands pk s (runActions sha256 spec schema s as) := by
  refine List.foldlRecOn (motive := fun s' => Stands pk s s') as _ (.refl pk s) ?_
  intro s' h a ha
  by_cases heq : pk = a.pk
  · subst heq
    exact h.apply_misses (hmiss a ha rfl)
  · exact h.apply_other hname (hfit a ha).rowName heq

theorem applyEntry_of_not_admitted (h : ¬ e.Admitted spec repoId) :
    (applyEntry sha256 spec schema repoId s e).2 = s := by
  unfold applyEntry applyRowOpOnStream
  split
  · rfl
  rename_i hst
  split
  · rfl
  · rfl
  · rename_i known hv
    exact absurd ⟨⟨known, hv⟩, (statedAbove_eq_none_iff spec e.op e.opMeta).mp hst⟩ h

theorem statesAtOrAbove_of_below {lamport : Nat} (h : ∀ n ∈ op.statedLamports, n < lamport) :
    statesAtOrAbove lamport op = false := by
  cases op with
  | upsert | remove => rfl
  | restate t v deletes => simpa [statesAtOrAbove, RowOp.statedLamports] using h
  | restateRows t v rows => simpa [statesAtOrAbove, RowOp.statedLamports] using h

theorem misses_of_rowWouldTake {row : StatedRow} {known : Known} {signer : RowClock}
    (hlen : row.pk.length = spec.pk.length) (h : rowWouldTake spec s row = false) :
    (Action.write row.pk ⟨row.lamport, row.device⟩ known signer).Misses s := by
  simp only [rowWouldTake, hlen, true_and, decide_eq_false_iff_not, not_and_or, Bool.not_eq_true',
    Bool.not_eq_false, suppresses_iff, unbeaten_eq_none_iff, not_lt] at h
  exact h

theorem misses_of_deleteWouldRemoveRow {d : StatedDelete} {signer : RowClock}
    (hlen : d.pk.length = spec.pk.length) (hrow : (s.rows (pkParams d.pk)).isSome)
    (h : deleteWouldRemoveRow spec s d = false) :
    (Action.delete d.pk ⟨d.lamport, d.device⟩ signer).Misses s := by
  simp only [deleteWouldRemoveRow, hlen, hrow, true_and, decide_eq_false_iff_not,
    Bool.not_eq_true', Bool.not_eq_false, survives_iff] at h
  exact h

theorem Spares.misses (hlen : pk.length = spec.pk.length) (hrow : (s.rows (pkParams pk)).isSome)
    (h : Spares spec s pk e.op) (ha : a ∈ e.actions spec) (hpk : a.pk = pk) : a.Misses s := by
  obtain ⟨op, m, haddr⟩ := e
  simp only [RowEntry.actions, mem_append, mem_map] at ha
  rcases ha with ⟨w, hw, rfl⟩ | ⟨d, hd, rfl⟩
  · cases op with
    | upsert t v pk' cells =>
      simp only [RowEntry.writes] at hw
      split at hw
      · obtain rfl := mem_singleton.mp hw
        exact absurd hpk h
      · cases hw
    | restateRows t v rows =>
      simp only [RowEntry.writes, mem_filterMap] at hw
      obtain ⟨row, hmem, hw⟩ := hw
      split at hw
      · cases hw
        have hpk' : row.pk = pk := hpk
        exact misses_of_rowWouldTake (hpk' ▸ hlen) (h row hmem hpk')
      · cases hw
    | remove | restate => cases hw
  · cases op with
    | remove t v pk' =>
      obtain rfl := mem_singleton.mp hd
      exact absurd hpk h
    | restate t v deletes =>
      obtain ⟨d', hmem, rfl⟩ := mem_map.mp hd
      have hpk' : d'.pk = pk := hpk
      exact misses_of_deleteWouldRemoveRow (hpk' ▸ hlen) (hpk' ▸ hrow) (h d' hmem hpk')
    | upsert | restateRows => cases hd

theorem applyEntry_spares (hname : RowName spec pk) (hrow : (s.rows (pkParams pk)).isSome)
    (h : Spares spec s pk e.op) : Stands pk s (applyEntry sha256 spec schema repoId s e).2 := by
  by_cases hadm : e.Admitted spec repoId
  · rw [(applyEntry_eq sha256 schema s hadm).1]
    exact runActions_stands hname (fun a ha => fits_of_admitted hadm ha)
      fun a ha hpk => h.misses hname.1.length hrow ha hpk
  · rw [applyEntry_of_not_admitted hadm]
    exact .refl pk s

/-- **What passes the guard leaves a row with unsent work as it stands**: on the merits of the row
    when the payload leaves it the decision, and by writing nothing when it does not. -/
theorem applyEntry_of_preApply (hname : RowName spec pk) (h : Unsent sha256 spec s pk)
    {doubt : RowDoubt} (hdoubt : doubt ≠ .nothingUnsent)
    (hpre : preApply sha256 spec log s repoId e.op e.opMeta.lamport doubt = .apply) :
    Stands pk s (applyEntry sha256 spec schema repoId s e).2 := by
  unfold preApply at hpre
  split at hpre
  · cases hpre
  · rename_i why hv
    rw [applyEntry_of_not_admitted fun hadm => ?_]
    · exact .refl pk s
    · obtain ⟨⟨known, hk⟩, -⟩ := hadm
      rw [hv] at hk
      cases hk
  · split at hpre
    · rename_i hst
      rw [applyEntry_of_not_admitted fun hadm => ?_]
      · exact .refl pk s
      · exact absurd hst (by rw [statesAtOrAbove_of_below hadm.2]; decide)
    · rcases spares_or_blocked log hname h e.op with hspares | ⟨r, hr, hproven⟩
      · exact applyEntry_spares hname h.row_isSome hspares
      · rw [hr] at hpre
        simp only [hproven, Bool.not_true, Bool.false_eq_true, false_and, and_false, if_false] at hpre
        cases hpre

theorem settleable_part (hnow : restateSettleableNow sha256 spec log s op = some now) :
    now.table = op.table ∧ (∀ pk ∈ now.pks, pk ∈ op.pks) ∧
      ∀ n ∈ now.statedLamports, n ∈ op.statedLamports := by
  unfold restateSettleableNow at hnow
  split at hnow
  iterate 2
    · simp only at hnow
      split_ifs at hnow
      cases hnow
      exact ⟨rfl, fun _ h => map_subset _ filter_sublist.subset h,
        fun _ h => map_subset _ filter_sublist.subset h⟩
  · cases hnow
  · cases hnow

end Spares

end RagRat.TableSync
