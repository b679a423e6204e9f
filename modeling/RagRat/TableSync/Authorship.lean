/-
  File:      RagRat/TableSync/Authorship.lean
  Subject:   LOCAL AUTHORSHIP WINS AT HOME. No clock, no tombstone and no statement of a stream's
             tables outruns the stream's lamport, so what is authored next is never superseded there.

  * `Dated` -- every lamport a store keeps satisfies a bound, and a live clock is newer than its
    row's tombstone;
  * `Reaches`, `StreamReached.dated` -- over a run the bound is a retained witness: entries are
    compacted and purged away, witnesses only rise;
  * `applyEntry_ne_superseded` -- an op above everything its table keeps is not superseded;
  * `authored_wins_at_home` -- the two together.
-/
import RagRat.TableSync.Stream

namespace RagRat.TableSync

open List
open Function

variable {c signer identity : RowClock} {k key repoId : String} {pk : List TypedValue}
  {log : ChainLog} {P Q : Nat → Prop} {s s' : Store} {o : Option RowClock} {ss : List Statement}
  {sha256 : Lib.Cbor.Bytes → Bytes32} {spec : TableSpec} {w : RowWrite} {e : RowEntry} {n v : Nat}
  {sc : Scope} {m : EntryMeta} {σ : StreamStore} {ok : StreamStore → StreamOp → Prop}
  {authored : List VerifiedEntry} {known : Known}

/-! ## 1. The lamports a store keeps -/

theorem RowClock.lamport_le {a b : RowClock} (h : a ≤ b) : a.lamport ≤ b.lamport := by
  by_contra hlt
  have hbeats : a.beats b = true := by
    unfold RowClock.beats
    exact decide_eq_true (.inl (by omega))
  rw [(RowClock.not_beats_iff a b).mpr h] at hbeats
  cases hbeats

open RowClock

/-- Every lamport of the store satisfies `P`, and a live clock is newer than the row's tombstone. -/
structure Dated (P : Nat → Prop) (s : Store) : Prop where
  clocks : ∀ key c, s.rowClocks key = some c → P c.lamport
  tombstones : ∀ key c, s.rowTombstones key = some c → P c.lamport
  rowLines : ∀ st ∈ s.rowStatements, P st.lamport
  tombstoneLines : ∀ st ∈ s.tombstoneStatements, P st.lamport
  newer : ∀ key c, s.rowClocks key = some c → toBot (s.rowTombstones key) < c

theorem dated_empty (P : Nat → Prop) : Dated P Store.empty := ⟨nofun, nofun, nofun, nofun, nofun⟩

section Dated

theorem Dated.imp (h : Dated P s) (hPQ : ∀ n, P n → Q n) : Dated Q s where
  clocks key c hc := hPQ _ (h.clocks key c hc)
  tombstones key c hc := hPQ _ (h.tombstones key c hc)
  rowLines st hst := hPQ _ (h.rowLines st hst)
  tombstoneLines st hst := hPQ _ (h.tombstoneLines st hst)
  newer := h.newer

theorem Dated.congr (h : Dated P s) (hc : s'.rowClocks = s.rowClocks)
    (ht : s'.rowTombstones = s.rowTombstones) (hr : s'.rowStatements = s.rowStatements)
    (hd : s'.tombstoneStatements = s.tombstoneStatements) : Dated P s' where
  clocks := hc ▸ h.clocks
  tombstones := ht ▸ h.tombstones
  rowLines := hr ▸ h.rowLines
  tombstoneLines := hd ▸ h.tombstoneLines
  newer := hc ▸ ht ▸ h.newer

theorem update_eq_some {f : String → Option RowClock} (h : update f key o k = some c) :
    k = key ∧ o = some c ∨ k ≠ key ∧ f k = some c := by
  by_cases hk : k = key
  · subst hk
    rw [update_self] at h
    exact .inl ⟨rfl, h⟩
  · rw [update_of_ne hk] at h
    exact .inr ⟨hk, h⟩

theorem lines_clear (h : ∀ st ∈ ss, P st.lamport) :
    ∀ st ∈ clearStatements ss key, P st.lamport := fun st hst =>
  h st (mem_clearStatements.mp hst).1

theorem lines_advance (h : ∀ st ∈ ss, P st.lamport) (hs : P signer.lamport) :
    ∀ st ∈ (advanceStatement ss key signer).2, P st.lamport := by
  intro st hst
  unfold advanceStatement at hst
  split at hst
  · split at hst
    · obtain ⟨st', hmem, rfl⟩ := mem_map.mp hst
      split
      · exact hs
      · exact h st' hmem
    · exact h st hst
  · rcases mem_append.mp hst with hst | hst
    · exact h st hst
    · rw [mem_singleton.mp hst]
      exact hs

theorem lines_tombstonesAfter (h : Dated P s) (hs : P signer.lamport) :
    ∀ st ∈ tombstonesAfter s key identity signer, P st.lamport := by
  unfold tombstonesAfter
  split
  · exact lines_advance (lines_clear h.tombstoneLines) hs
  · split
    · exact lines_advance h.tombstoneLines hs
    · exact h.tombstoneLines

variable {schema : Schema spec}

theorem Dated.settleRow (h : Dated P s) (hi : P w.identity.lamport) (hs : P w.signer.lamport) :
    Dated P (settleRow sha256 spec schema s w).2 := by
  obtain ⟨r, hr, hset⟩ := settleRow_cases sha256 schema s w
  rw [hr]
  cases hset with
  | suppressed | lost | violated => exact h
  | carried =>
    exact ⟨h.clocks, h.tombstones, lines_advance h.rowLines hs, h.tombstoneLines, h.newer⟩
  | won ht =>
    refine ⟨fun key c hc => ?_, h.tombstones, lines_advance (lines_clear h.rowLines) hs,
      h.tombstoneLines, fun key c hc => ?_⟩
    · rcases update_eq_some hc with ⟨-, heq⟩ | ⟨-, hold⟩
      · cases heq
        exact hi
      · exact h.clocks key c hold
    · rcases update_eq_some hc with ⟨rfl, heq⟩ | ⟨-, hold⟩
      · cases heq
        exact ht
      · exact h.newer key c hold

theorem Dated.settleDelete (h : Dated P s) (hi : P identity.lamport) (hs : P signer.lamport) :
    Dated P (settleDelete spec schema s pk identity signer).2 := by
  have htombs : ∀ key c, update s.rowTombstones (rowPkString pk)
      (tombstoneAfter s (rowPkString pk) identity) key = some c → P c.lamport := by
    intro key c hc
    rcases update_eq_some hc with ⟨-, hafter⟩ | ⟨-, hold⟩
    · unfold tombstoneAfter at hafter
      split at hafter
      · cases hafter
        exact hi
      · exact h.tombstones _ c hafter
    · exact h.tombstones key c hold
  obtain ⟨fate, moved, s', hr, hset⟩ := settleDelete_cases schema s pk identity signer
  rw [hr]
  cases hset with
  | violated => exact h
  | kept hlt =>
    refine ⟨h.clocks, htombs, h.rowLines, lines_tombstonesAfter h hs, fun key c hc => ?_⟩
    have hc : s.rowClocks key = some c := hc
    show toBot (update s.rowTombstones _ _ key) < ↑c
    by_cases hkey : key = rowPkString pk
    · subst hkey
      rw [update_self, tombstoneAfter]
      split
      · rw [hc] at hlt
        exact hlt
      · exact h.newer _ c hc
    · rw [update_of_ne hkey]
      exact h.newer key c hc
  | won =>
    refine ⟨fun key c hc => ?_, htombs, lines_clear h.rowLines, lines_tombstonesAfter h hs,
      fun key c hc => ?_⟩
    · rcases update_eq_some hc with ⟨-, heq⟩ | ⟨-, hold⟩
      · cases heq
      · exact h.clocks key c hold
    · rcases update_eq_some hc with ⟨-, heq⟩ | ⟨hkey, hold⟩
      · cases heq
      · show toBot (update s.rowTombstones _ _ key) < ↑c
        rw [update_of_ne hkey]
        exact h.newer key c hold

/-- The identity and the signer of a statement satisfy `P`. -/
def Action.DatedBy (P : Nat → Prop) : Action → Prop
  | .write _ c _ signer | .delete _ c signer => P c.lamport ∧ P signer.lamport

theorem Dated.apply (h : Dated P s) {a : Action} (ha : a.DatedBy P) :
    Dated P (a.apply sha256 spec schema s) := by
  cases a with
  | write pk c known signer => exact h.settleRow ha.1 ha.2
  | delete pk c signer => exact h.settleDelete ha.1 ha.2

theorem actions_datedBy (he : e.Admitted spec repoId) (hP : ∀ n ≤ e.opMeta.lamport, P n) :
    ∀ a ∈ e.actions spec, a.DatedBy P := by
  obtain ⟨op, m, haddr⟩ := e
  have hown : P (RowEntry.clock ⟨op, m, haddr⟩).lamport := hP _ le_rfl
  have hstated : ∀ n ∈ op.statedLamports, P n := fun n hn => hP n (he.2 n hn).le
  intro a ha
  rcases mem_append.mp ha with ha | ha
  · obtain ⟨⟨pk, c, known⟩, hw, rfl⟩ := mem_map.mp ha
    refine ⟨?_, hown⟩
    cases op with
    | upsert t v pk cells =>
      simp only [RowEntry.writes] at hw
      split at hw
      · rw [mem_singleton.mp hw]
        exact hown
      · cases hw
    | restateRows t v rows =>
      obtain ⟨row, hrow, hsome⟩ := mem_filterMap.mp hw
      split at hsome
      · cases hsome
        exact hstated _ (mem_map_of_mem hrow)
      · cases hsome
    | remove | restate => cases hw
  · obtain ⟨⟨pk, c⟩, hd, rfl⟩ := mem_map.mp ha
    refine ⟨?_, hown⟩
    cases op with
    | remove t v pk =>
      rw [mem_singleton.mp hd]
      exact hown
    | restate t v deletes =>
      obtain ⟨d, hmem, heq⟩ := mem_map.mp hd
      cases heq
      exact hstated _ (mem_map_of_mem hmem)
    | upsert | restateRows => cases hd

theorem Dated.applyEntry (h : Dated P s) (hP : ∀ n ≤ e.opMeta.lamport, P n) :
    Dated P (applyEntry sha256 spec schema repoId s e).2 := by
  by_cases he : e.Admitted spec repoId
  · rw [(applyEntry_eq sha256 schema s he).1]
    refine List.foldlRecOn (motive := fun acc : Store => Dated P acc) _ _ h fun acc hacc a ha => ?_
    exact hacc.apply (actions_datedBy he hP a ha)
  · rw [applyEntry_of_not_admitted he]
    exact h

end Dated

/-! ## 2. Over a run -/

/-- Some retained witness of the stream stands at or above `n`. -/
def Reaches (log : ChainLog) (n : Nat) : Prop :=
  ∃ d w, log.chainWitness d = some w ∧ n ≤ w.lamport

theorem Reaches.lt_next (h : Reaches log n) : n < log.nextStreamLamport := by
  obtain ⟨d, w, hw, hle⟩ := h
  exact hle.trans_lt (witness_lt_nextStreamLamport hw)

theorem Reaches.le_max (h : Reaches log n) :
    ∃ highest, log.streamMaxLamport = some highest ∧ n ≤ highest := by
  obtain ⟨d, w, hw, hle⟩ := h
  obtain ⟨highest, hmax, hle'⟩ := max_of_mem
    (mem_append_right _ (mem_map_of_mem (mem_of_chainWitness hw)))
  exact ⟨highest, hmax, hle.trans hle'⟩

section Run

variable {brings : VerifiedEntry → Prop}

theorem FoldsOne.dated {tables tables' : String → Store} (hf : FoldsOne sc m tables tables')
    (h : ∀ name, Dated P (tables name)) (hP : ∀ n ≤ m.lamport, P n) (name : String) :
    Dated P (tables' name) := by
  cases hf with
  | kept => exact h name
  | entry e _ hm =>
    by_cases hname : name = e.op.table
    · subst hname
      rw [update_self]
      exact (h _).applyEntry (hm ▸ hP)
    · rw [update_of_ne hname]
      exact h name

theorem Touch.dated {σ σ' : Replica} (ht : Touch sc brings σ σ') (hs : ∀ d, Sound σ.log d)
    (h : ∀ name, Dated (Reaches σ.log) (σ.tables name)) (name : String) :
    Dated (Reaches σ'.log) (σ'.tables name) := by
  have hraised : ∀ name, Dated (Reaches σ'.log) (σ.tables name) := by
    refine fun name => (h name).imp fun n ⟨d, w, hw, hle⟩ => ?_
    obtain ⟨w', hw', hor⟩ := ht.chain.witness_le hs hw
    refine ⟨d, w', hw', ?_⟩
    rcases hor with rfl | hlt
    · exact hle
    · exact hle.trans hlt.le
  cases ht.tables with
  | folds m e hmem hm hfold =>
    refine hfold.dated hraised (fun n hn => ?_) name
    -- the entry is accepted, and its chain's witness stands at or above it
    obtain ⟨w, hw, hle⟩ := (ht.chain.sound hs e.device).le_witness
      (mem_filter.mpr ⟨hmem, decide_eq_true rfl⟩)
    have hlam : m.lamport = e.lamport := congrArg lamport hm
    exact ⟨e.device, w, hw, by omega⟩
  | apart hsame =>
    obtain ⟨hc, ht, hr, hd⟩ := hsame name
    exact (hraised name).congr hc ht hr hd
  | cleared heq =>
    rw [heq]
    exact dated_empty _

theorem Touches.dated {σ σ' : Replica} (ht : Touches sc brings σ σ') (hs : ∀ d, Sound σ.log d)
    (h : ∀ name, Dated (Reaches σ.log) (σ.tables name)) (name : String) :
    Dated (Reaches σ'.log) (σ'.tables name) := by
  induction ht generalizing name with
  | refl => exact h name
  | tail hpre hstep ih => exact hstep.dated (Touches.sound hpre hs) ih name

/-- **What every reached store keeps**: sound chains, and tables that no lamport outruns. -/
theorem StreamReached.dated (h : StreamReached sc ok σ authored) :
    (∀ d, Sound σ.log d) ∧ ∀ name, Dated (Reaches σ.log) (σ.tables name) := by
  induction h with
  | start => exact ⟨sound_empty _, fun name => dated_empty _⟩
  | step _ op _ hs ih =>
    have ht := streamStep_touches ih.1 hs
    exact ⟨ht.sound ih.1, ht.dated ih.1 ih.2⟩

end Run

/-! ## 3. An op above everything its table keeps -/

/-- An op produced from a row, or a batch restating what stands in this store. -/
def RowOp.FromHome (s : Store) : RowOp → Prop
  | .upsert .. | .remove .. => True
  | .restate _ _ deletes => deletes ≠ [] ∧
      ∀ d ∈ deletes, s.rowTombstones (rowPkString d.pk) = some ⟨d.lamport, d.device⟩
  | .restateRows _ _ rows => rows ≠ [] ∧
      ∀ r ∈ rows, s.rowClocks (rowPkString r.pk) = some ⟨r.lamport, r.device⟩

theorem advanceStatement_moves (h : ∀ st ∈ ss, st.lamport < signer.lamport) :
    (advanceStatement ss key signer).1 = true := by
  unfold advanceStatement
  split
  · rename_i st hfind
    rw [if_pos (h st (mem_of_find?_eq_some hfind))]
  · rfl

section Outcome

variable {schema : Schema spec}

theorem not_le_of_dated (h : ∀ d, o = some d → d.lamport < c.lamport) : ¬ (↑c ≤ toBot o) := by
  intro hle
  cases o with
  | none => exact absurd (le_bot_iff.mp hle) WithBot.coe_ne_bot
  | some d =>
    have := lamport_le (WithBot.coe_le_coe.mp hle)
    have := h d rfl
    omega

theorem raiseTombstone_moves (hcur : s.rowTombstones key = some identity)
    (h : ∀ st ∈ s.tombstoneStatements, st.lamport < signer.lamport) :
    (s.raiseTombstone key identity signer).1 = true := by
  have hno : s.outranksTombstone key identity = false := by
    rw [← Bool.not_eq_true, outranksTombstone_iff, hcur]
    exact lt_irrefl _
  unfold Store.raiseTombstone
  simp only [hno, hcur, Bool.false_eq_true, if_false, if_true]
  exact advanceStatement_moves h

/-- The batch moved something, or failed on something. -/
def BatchState.Marked (b : BatchState) : Prop := b.changed = true ∨ b.quarantined.isSome = true

theorem outcome_ne_superseded {b : BatchState} (h : b.Marked) : b.outcome.1 ≠ .superseded := by
  unfold BatchState.outcome
  split
  · nofun
  rename_i hnone
  rw [BatchState.Marked, hnone] at h
  rcases h with h | h
  · simp [h]
  · cases h

theorem restateStep_marks (m : EntryMeta) (b : BatchState) (d : StatedDelete)
    (h : b.Marked) : (restateStep spec schema m b d).Marked := by
  unfold BatchState.Marked restateStep
  simp only
  split <;> rcases h with h | h <;> simp [h]

theorem restateRowsStep_marks (v : Nat) (m : EntryMeta) (b : BatchState) (row : StatedRow)
    (h : b.Marked) : (restateRowsStep sha256 spec schema v m b row).Marked := by
  unfold BatchState.Marked restateRowsStep
  split
  · simp only
    split <;> rcases h with h | h <;> simp [h]
  · exact h

theorem settleDelete_restates (hcur : s.rowTombstones (rowPkString pk) = some identity)
    (hlines : ∀ st ∈ s.tombstoneStatements, st.lamport < signer.lamport) :
    (∃ why, (settleDelete spec schema s pk identity signer).1.row = .quarantined why) ∨
      (settleDelete spec schema s pk identity signer).1.mergeChanged = true := by
  unfold settleDelete
  simp only
  split
  · exact .inr (raiseTombstone_moves hcur hlines)
  · split
    · exact .inl ⟨_, rfl⟩
    · exact .inr (raiseTombstone_moves hcur hlines)

theorem settleRow_restates (hcur : s.rowClocks (rowPkString w.pkVals) = some w.identity)
    (hnew : toBot (s.rowTombstones (rowPkString w.pkVals)) < w.identity)
    (hlines : ∀ st ∈ s.rowStatements, st.lamport < w.signer.lamport) :
    (settleRow sha256 spec schema s w).1 = .held true := by
  have hsup : s.suppresses (rowPkString w.pkVals) w.identity = false := by
    rw [← Bool.not_eq_true, suppresses_iff]
    exact not_le_of_gt hnew
  have hun : s.unbeaten (rowPkString w.pkVals) w.identity = some w.identity := by
    unfold Store.unbeaten
    rw [hcur]
    exact if_neg fun hb => lt_irrefl _ ((beats_iff _ _).mp hb)
  unfold settleRow
  simp only [hsup, hun, Bool.false_eq_true, if_false, true_or, if_true]
  exact congrArg RowSettle.held (advanceStatement_moves hlines)

section

variable (h : Dated (fun n => n < m.lamport) s)

include h

theorem restateStep_moves {d : StatedDelete}
    (hcur : s.rowTombstones (rowPkString d.pk) = some ⟨d.lamport, d.device⟩) :
    (restateStep spec schema m ⟨false, none, s⟩ d).Marked := by
  have hmoves : (∃ why, (settleDelete spec schema s d.pk ⟨d.lamport, d.device⟩ m.clock).1.row =
      .quarantined why) ∨ _ := settleDelete_restates hcur h.tombstoneLines
  unfold BatchState.Marked restateStep
  simp only
  rcases hmoves with ⟨why, hrow⟩ | hmoved
  · rw [hrow]
    exact .inr rfl
  · split
    · exact .inr rfl
    · simp [hmoved]
    · simp [hmoved]

theorem restateRowsStep_moves {row : StatedRow}
    (hcur : s.rowClocks (rowPkString row.pk) = some ⟨row.lamport, row.device⟩)
    (hk : projectCells spec v row.cells = .complete known) :
    (restateRowsStep sha256 spec schema v m ⟨false, none, s⟩ row).changed = true := by
  have hheld : (settleRow sha256 spec schema s
      ⟨row.pk, known, ⟨row.lamport, row.device⟩, m.clock⟩).1 = .held true :=
    settleRow_restates hcur (h.newer _ _ hcur) h.rowLines
  unfold restateRowsStep
  simp only [hk, hheld]
  rfl

theorem applyRestate_ne_superseded {deletes : List StatedDelete} (hne : deletes ≠ [])
    (hstand : ∀ d ∈ deletes, s.rowTombstones (rowPkString d.pk) = some ⟨d.lamport, d.device⟩) :
    (applyRestate spec schema s deletes m).1 ≠ .superseded := by
  obtain ⟨d, ds, rfl⟩ := exists_cons_of_ne_nil hne
  refine outcome_ne_superseded ?_
  -- the first one moves or fails, and the rest of the batch takes neither back
  exact List.foldlRecOn (motive := BatchState.Marked) ds _
    (restateStep_moves h (hstand d mem_cons_self)) fun b hb d' _ => restateStep_marks m b d' hb

theorem applyRestateRows_ne_superseded {rows : List StatedRow} (hne : rows ≠ [])
    (hstand : ∀ r ∈ rows, s.rowClocks (rowPkString r.pk) = some ⟨r.lamport, r.device⟩)
    (hproj : ∀ r ∈ rows, ∃ k, projectCells spec v r.cells = .complete k) :
    (applyRestateRows sha256 spec schema s v rows m).1 ≠ .superseded := by
  obtain ⟨row, rest, rfl⟩ := exists_cons_of_ne_nil hne
  obtain ⟨k, hk⟩ := hproj row mem_cons_self
  refine outcome_ne_superseded ?_
  exact List.foldlRecOn (motive := BatchState.Marked) rest _
    (.inl (restateRowsStep_moves h (hstand row mem_cons_self) hk)) fun b hb row' _ =>
      restateRowsStep_marks v m b row' hb

theorem applyUpsert_ne_superseded :
    (applyUpsert sha256 spec schema s pk known m).1 ≠ .superseded := by
  obtain ⟨r, hr, hset⟩ := settleRow_cases sha256 schema s ⟨pk, known, m.clock, m.clock⟩
  unfold applyUpsert
  rw [hr]
  cases hset with
  | suppressed hle => exact absurd hle (not_le_of_dated (h.tombstones _))
  | carried stored hc _ hle | lost stored hc _ hle =>
    exact absurd (h.clocks _ stored hc) (not_lt_of_ge (lamport_le hle))
  | violated | won => nofun

theorem applyRemove_ne_superseded : (applyRemove spec schema s pk m).1 ≠ .superseded := by
  obtain ⟨fate, moved, s', hr, hset⟩ := settleDelete_cases schema s pk m.clock m.clock
  unfold applyRemove
  rw [hr]
  cases hset with
  | kept hlt => exact absurd hlt.le (not_le_of_dated (h.clocks _))
  | violated | won => nofun

end

theorem applyEntry_ne_superseded (h : Dated (fun n => n < e.opMeta.lamport) s)
    (hhome : e.op.FromHome s) : (applyEntry sha256 spec schema repoId s e).1 ≠ .superseded := by
  obtain ⟨op, m, haddr⟩ := e
  unfold applyEntry applyRowOpOnStream
  split
  · nofun
  split
  · nofun
  · nofun
  rename_i known hv
  have hknown := payloadVerdict_known hv
  cases op with
  | upsert t v pk cells =>
    obtain ⟨k, rfl, -⟩ := hknown
    exact applyUpsert_ne_superseded h
  | remove t v pk =>
    cases (show known = none from hknown)
    exact applyRemove_ne_superseded h
  | restate t v deletes =>
    cases (show known = none from hknown)
    exact applyRestate_ne_superseded h hhome.1 hhome.2
  | restateRows t v rows =>
    obtain ⟨rfl, hproj⟩ := hknown
    exact applyRestateRows_ne_superseded h hhome.1 hhome.2 hproj

end Outcome

/-! ## 4. Authored next -/

theorem StreamReached.authored_lt (h : StreamReached sc ok σ authored) :
    ∀ v ∈ authored, v.lamport < maxEntryLamport := by
  induction h with
  | start => nofun
  | step hr op _ hs ih =>
    intro v hv
    rcases mem_append.mp hv with hv | hv
    · exact ih v hv
    · rcases authors_of_streamStep hr.dated.1 hs with rfl | ⟨v', _, _, _, _, _, _, rfl, hauth⟩
      · cases hv
      · obtain rfl := mem_singleton.mp hv
        exact hauth.lamport_lt

/-- **Local authorship wins at home.** In every store reached from empty, no row clock and no
    tombstone of the stream is above the stream's highest lamport. An op authored next is above them
    all, and applied at home it is not superseded. What is authored stays below the ceiling; at the
    ceiling authoring fails and stores nothing. -/
theorem authored_wins_at_home (sc : Scope) (σ : StreamStore) (authored : List VerifiedEntry)
    (h : StreamReached sc (fun _ _ => True) σ authored) :
    (∀ table key c, (σ.tables table).rowClocks key = some c ∨
        (σ.tables table).rowTombstones key = some c →
      ∃ highest, σ.log.streamMaxLamport = some highest ∧ c.lamport ≤ highest) ∧
    (∀ device hash op addressable e log,
      authorRowEntry sc.streamId σ.log device hash op addressable = .ok (e, log) →
        (∀ table key c, (σ.tables table).rowClocks key = some c ∨
          (σ.tables table).rowTombstones key = some c → c.lamport < e.opMeta.lamport) ∧
        (op.FromHome (σ.tables op.table) → (sc.applyEntry σ.tables e).1 ≠ .superseded)) ∧
    (∀ v ∈ authored, v.lamport < maxEntryLamport) ∧
    (maxEntryLamport ≤ σ.log.nextStreamLamport → ∀ device hash op addressable,
      ∃ why, authorOnStream sc σ device hash op addressable = .error why) := by
  obtain ⟨hsound, hdated⟩ := h.dated
  have hreach : ∀ table key c, (σ.tables table).rowClocks key = some c ∨
      (σ.tables table).rowTombstones key = some c → Reaches σ.log c.lamport := fun table key c hc =>
    hc.elim ((hdated table).clocks key c) ((hdated table).tombstones key c)
  refine ⟨fun table key c hc => (hreach table key c hc).le_max, ?_, h.authored_lt, ?_⟩
  · intro device hash op addressable e log hauth
    obtain ⟨v, rfl, hop, hclock, -⟩ := authorRowEntry_extends hsound hauth
    have hlam : e.opMeta.lamport = σ.log.nextStreamLamport := congrArg lamport hclock
    refine ⟨fun table key c hc => hlam ▸ (hreach table key c hc).lt_next, fun hhome => ?_⟩
    unfold Scope.applyEntry
    split
    · refine applyEntry_ne_superseded ((hdated e.op.table).imp fun n hn => ?_) (hop ▸ hhome)
      exact hlam ▸ hn.lt_next
    · nofun
  · intro hfull device hash op addressable
    have hrefused : ∃ why, authorRowEntry sc.streamId σ.log device hash op addressable = .error why := by
      cases hres : authorRowEntry sc.streamId σ.log device hash op addressable with
      | error why => exact ⟨why, rfl⟩
      | ok r =>
        obtain ⟨-, hlt, -⟩ := authorRowEntry_ok hres
        omega
    obtain ⟨why, hrow⟩ := hrefused
    unfold authorOnStream authorAndApply
    rw [hrow]
    split
    · exact ⟨_, rfl⟩
    · exact ⟨_, rfl⟩

/-- A summary arrives at lamport 5; what another device authors of it then goes above, and replaces it. -/
theorem authored_wins_at_home_note :
    ∃ σ authored highest e log,
      runStream noteScope (fun _ _ => true) .empty []
        [receiveNote (noteUpsert 100 5 none "a") none none] = some (σ, authored) ∧
      (σ.tables "memory_note_summaries").rowClocks (rowPkString summaryPk) = some ⟨5, 7⟩ ∧
      σ.log.streamMaxLamport = some highest ∧ 5 ≤ highest ∧
      authorRowEntry noteScope.streamId σ.log 8 101
        (.upsert "memory_note_summaries" 1 summaryPk (summaryCells "b")) summaryPk_addressable =
          .ok (e, log) ∧
      5 < e.opMeta.lamport ∧ (noteScope.applyEntry σ.tables e).1 ≠ .superseded := by
  have hrun : ((runStream noteScope (fun _ _ => true) .empty []
      [receiveNote (noteUpsert 100 5 none "a") none none]).map fun r =>
        ((r.1.tables "memory_note_summaries").rowClocks (rowPkString summaryPk),
          (authorRowEntry noteScope.streamId r.1.log 8 101
            (.upsert "memory_note_summaries" 1 summaryPk (summaryCells "b"))
            summaryPk_addressable).toBool)) =
      some (some ⟨5, 7⟩, true) := by decide +kernel
  obtain ⟨⟨σ, authored⟩, hr, hboth⟩ := Option.map_eq_some_iff.mp hrun
  obtain ⟨hclock, hok⟩ := Prod.mk.inj hboth
  have hreach : StreamReached noteScope (fun _ _ => True) σ authored :=
    StreamReached.run (fun _ _ _ => trivial) .start hr
  obtain ⟨hbelow, hnext, -⟩ := authored_wins_at_home noteScope σ authored hreach
  obtain ⟨highest, hmax, hle⟩ := hbelow _ _ _ (.inl hclock)
  cases hauth : authorRowEntry noteScope.streamId σ.log 8 101
      (.upsert "memory_note_summaries" 1 summaryPk (summaryCells "b")) summaryPk_addressable with
  | error why =>
    rw [hauth] at hok
    cases hok
  | ok r =>
    obtain ⟨habove, hwins⟩ := hnext _ _ _ _ _ _ hauth
    exact ⟨σ, authored, highest, r.1, r.2, hr, hclock, hmax, hle, hauth, habove _ _ _ (.inl hclock),
      hwins trivial⟩

end RagRat.TableSync
