/-
  File:      RagRat/TableSync/Carriers.lean
  Subject:   WHICH ENTRY CARRIES A ROW. Retention keeps the entries the statement tables name; this
             is what those tables owe it.

  A live row needs a statement naming an entry that writes it at its clock, a deleted row one naming
  an entry that deletes it at its tombstone (`Carried`). A statement that settles keeps that, with
  one exception (`Displaces`): a stated write that is older than the live write of the same device
  still moves its chain's statement, off an entry that did carry the row.

  * `carried_apply`, `carried_run` -- one statement, and a run of statements that displace nothing.
-/
import RagRat.TableSync.Converge

namespace RagRat.TableSync

variable {key key' : String} {pk pk' : List TypedValue} {ss : List Statement} {st : Statement}
  {P : RowClock → Prop} {as bs : List Action} {c identity d : RowClock}

/-! ## 1. The statement tables -/

/-- The entry a statement names. -/
def Statement.signer (st : Statement) : RowClock := ⟨st.lamport, st.device⟩

/-- A statement of the signer's chain for the row, at the signer. -/
def statementOf (key : String) (signer : RowClock) : Statement := ⟨key, signer.device, signer.lamport⟩

theorem mem_clearStatements : st ∈ clearStatements ss key ↔ st ∈ ss ∧ st.rowPk ≠ key := by
  simp [clearStatements]

theorem mem_advanceStatement {signer : RowClock} (h : st ∈ ss) :
    st ∈ (advanceStatement ss key signer).2 ∨
      (st.rowPk = key ∧ st.device = signer.device ∧ st.signer ≠ signer ∧
        statementOf key signer ∈ (advanceStatement ss key signer).2) := by
  unfold advanceStatement
  split
  · split
    · by_cases hst : st.rowPk = key ∧ st.device = signer.device
      · have hmoved : statementOf key signer ∈ ss.map fun t =>
            if t.rowPk = key ∧ t.device = signer.device then { t with lamport := signer.lamport }
            else t := by
          refine List.mem_map.mpr ⟨st, h, ?_⟩
          rw [if_pos hst]
          obtain ⟨rfl, hdev⟩ := hst
          simp [statementOf, hdev]
        by_cases hsame : st.signer = signer
        · left
          have heq : st = statementOf key signer := by
            obtain ⟨rfl, -⟩ := hst
            rw [← hsame]
            rfl
          exact heq ▸ hmoved
        · exact .inr ⟨hst.1, hst.2, hsame, hmoved⟩
      · left
        exact List.mem_map.mpr ⟨st, h, if_neg hst⟩
    · exact .inl h
  · exact .inl (List.mem_append_left _ h)

theorem statementOf_mem_advance_clear (ss : List Statement) (key : String) (signer : RowClock) :
    statementOf key signer ∈ (advanceStatement (clearStatements ss key) key signer).2 := by
  have hnone : (clearStatements ss key).find?
      (fun s => s.rowPk = key ∧ s.device = signer.device) = none := by
    rw [List.find?_eq_none]
    intro st hst
    simp [(mem_clearStatements.mp hst).2]
  unfold advanceStatement
  rw [hnone]
  exact List.mem_append_right _ (List.mem_singleton.mpr rfl)

/-- The row `key` has a statement naming an entry of which `P` holds. -/
def StatedIn (ss : List Statement) (key : String) (P : RowClock → Prop) : Prop :=
  ∃ st ∈ ss, st.rowPk = key ∧ P st.signer

section StatedIn

variable {signer : RowClock}

theorem StatedIn.advance (h : StatedIn ss key P) (hp : P signer) :
    StatedIn (advanceStatement ss key signer).2 key P := by
  obtain ⟨st, hst, hkey, hP⟩ := h
  rcases mem_advanceStatement hst with hin | ⟨-, -, -, hin⟩
  · exact ⟨st, hin, hkey, hP⟩
  · exact ⟨statementOf key signer, hin, rfl, hp⟩

theorem StatedIn.advance_of_ne (h : StatedIn ss key' P) (hne : key' ≠ key) :
    StatedIn (advanceStatement ss key signer).2 key' P := by
  obtain ⟨st, hst, hkey, hP⟩ := h
  rcases mem_advanceStatement hst with hin | ⟨hk, -⟩
  · exact ⟨st, hin, hkey, hP⟩
  · exact absurd (hkey.symm.trans hk) hne

theorem StatedIn.clear_of_ne (h : StatedIn ss key' P) (hne : key' ≠ key) :
    StatedIn (clearStatements ss key) key' P := by
  obtain ⟨st, hst, hkey, hP⟩ := h
  exact ⟨st, mem_clearStatements.mpr ⟨hst, hkey ▸ hne⟩, hkey, hP⟩

theorem statedIn_advance_clear (hp : P signer) :
    StatedIn (advanceStatement (clearStatements ss key) key signer).2 key P :=
  ⟨_, statementOf_mem_advance_clear ss key signer, rfl, hp⟩

end StatedIn

/-! ## 2. Carried rows -/

section Carried

-- `W signer pk c`: the entry at `signer` writes the row at `c`; `D` the same for deletes
variable (W D : RowClock → List TypedValue → RowClock → Prop) {signer : RowClock}

/-- Every row's merge state is stated by an entry that carries it. -/
structure Carried (spec : TableSpec) (s : Store) : Prop where
  live : ∀ pk, RowName spec pk → ∀ c, s.rowClocks (rowPkString pk) = some c →
    StatedIn s.rowStatements (rowPkString pk) (W · pk c)
  dead : ∀ pk, RowName spec pk → s.rowClocks (rowPkString pk) = none →
    ∀ d, s.rowTombstones (rowPkString pk) = some d →
      StatedIn s.tombstoneStatements (rowPkString pk) (D · pk d)

/-- The statement of a write older than the live write of its device, by a chain whose statement
    names an earlier entry that carries the live write: settling it moves that statement away. -/
def Displaces (s : Store) : Action → Prop
  | .write pk c _ signer => ∃ live ∈ s.rowClocks (rowPkString pk), c < live ∧
      c.device = live.device ∧ ∃ st ∈ s.rowStatements, st.rowPk = rowPkString pk ∧
        st.device = signer.device ∧ st.signer ≠ signer ∧ W st.signer pk live
  | .delete .. => False

instance [∀ signer pk c, Decidable (W signer pk c)] (s : Store) :
    (a : Action) → Decidable (Displaces W s a)
  | .write .. => inferInstanceAs (Decidable (∃ live ∈ s.rowClocks _, _))
  | .delete .. => .isFalse id

/-- The entry that carries a statement states it. -/
def Action.StatedBy : Action → Prop
  | .write pk c _ signer => W signer pk c
  | .delete pk d signer => D signer pk d

variable {W D} {sha256 : Lib.Cbor.Bytes → Bytes32} {spec : TableSpec} {schema : Schema spec}
  {s : Store}

theorem Carried.mono {W' D' : RowClock → List TypedValue → RowClock → Prop} (h : Carried W D spec s)
    (hW : ∀ st ∈ s.rowStatements, ∀ pk c, s.rowClocks st.rowPk = some c →
      W st.signer pk c → W' st.signer pk c)
    (hD : ∀ st ∈ s.tombstoneStatements, ∀ pk d, s.rowClocks st.rowPk = none →
      s.rowTombstones st.rowPk = some d → D st.signer pk d → D' st.signer pk d) :
    Carried W' D' spec s where
  live pk hpk c hc := by
    obtain ⟨st, hst, hkey, hw⟩ := h.live pk hpk c hc
    exact ⟨st, hst, hkey, hW st hst pk c (hkey ▸ hc) hw⟩
  dead pk hpk hc d hd := by
    obtain ⟨st, hst, hkey, hdel⟩ := h.dead pk hpk hc d hd
    exact ⟨st, hst, hkey, hD st hst pk d (hkey ▸ hc) (hkey ▸ hd) hdel⟩

theorem RowName.key_ne (h : RowName spec pk) (h' : RowName spec pk') (hne : pk' ≠ pk) :
    rowPkString pk' ≠ rowPkString pk := fun e =>
  hne (rowPkString_inj h'.2 h.2 e)

theorem carried_write {known : Known} (hname : RowName spec pk) (hw : W signer pk c)
    (hnd : ¬ Displaces W s (.write pk c known signer)) (h : Carried W D spec s) :
    Carried W D spec ((Action.write pk c known signer).apply sha256 spec schema s) := by
  obtain ⟨r, hr, hset⟩ := settleRow_cases sha256 schema s ⟨pk, known, c, signer⟩
  simp only [Action.apply, hr]
  cases hset with
  | suppressed => exact h
  | lost => exact h
  | violated => exact h
  | carried stored hc ht hle hcar =>
    refine ⟨fun pk' hpk' c' hc' => ?_, h.dead⟩
    have hst := h.live pk' hpk' c' hc'
    by_cases hpk : pk' = pk
    · subst hpk
      obtain rfl : c' = stored := Option.some.inj (hc'.symm.trans hc)
      rcases hle.eq_or_lt with heq | hlt
      · obtain rfl : c = c' := heq
        exact hst.advance hw
      -- an older write of the live clock's device: its chain may not state the row already
      have hdev : c.device = c'.device := by
        rcases hcar with heq | ⟨-, hdev⟩
        · exact absurd heq hlt.ne
        · exact hdev
      obtain ⟨st, hst, hkey, hW⟩ := hst
      rcases mem_advanceStatement hst with hin | ⟨-, hsd, hne, -⟩
      · exact ⟨st, hin, hkey, hW⟩
      · exact absurd ⟨c', hc, hlt, hdev, st, hst, hkey, hsd, hne, hW⟩ hnd
    · exact hst.advance_of_ne (hname.key_ne hpk' hpk)
  | won ht hc =>
    refine ⟨fun pk' hpk' c' hc' => ?_, fun pk' hpk' hc' => ?_⟩
    · by_cases hpk : pk' = pk
      · subst hpk
        obtain rfl : c = c' := by simpa [wonStore] using hc'
        exact statedIn_advance_clear hw
      · have hne := hname.key_ne hpk' hpk
        have hst := h.live pk' hpk' c' (by simpa [wonStore, hne] using hc')
        exact (hst.clear_of_ne hne).advance_of_ne hne
    · by_cases hpk : pk' = pk
      · subst hpk
        simp [wonStore] at hc'
      · have hne := hname.key_ne hpk' hpk
        exact h.dead pk' hpk' (by simpa [wonStore, hne] using hc')

theorem StatedIn.tombstonesAfter_of_ne (h : StatedIn s.tombstoneStatements key' P)
    (hne : key' ≠ key) : StatedIn (tombstonesAfter s key identity signer) key' P := by
  unfold tombstonesAfter
  split
  · exact (h.clear_of_ne hne).advance_of_ne hne
  · split
    · exact h.advance_of_ne hne
    · exact h

theorem statedIn_tombstonesAfter {P : RowClock → RowClock → Prop} (hp : P signer identity)
    (h : ¬ toBot (s.rowTombstones key) < identity → ∀ d, s.rowTombstones key = some d →
      StatedIn s.tombstoneStatements key (P · d)) (hd : tombstoneAfter s key identity = some d) :
    StatedIn (tombstonesAfter s key identity signer) key (P · d) := by
  unfold tombstoneAfter at hd
  unfold tombstonesAfter
  by_cases hlt : toBot (s.rowTombstones key) < identity
  · rw [if_pos hlt] at hd ⊢
    obtain rfl := Option.some.inj hd
    exact statedIn_advance_clear hp
  rw [if_neg hlt] at hd ⊢
  have hst := h hlt d hd
  by_cases hcur : s.rowTombstones key = some identity
  · rw [if_pos hcur]
    obtain rfl : d = identity := Option.some.inj (hd.symm.trans hcur)
    exact hst.advance hp
  · rw [if_neg hcur]
    exact hst

theorem carried_delete (hname : RowName spec pk) (hd : D signer pk d)
    (habove : ∀ c, s.rowClocks (rowPkString pk) = some c →
      toBot (s.rowTombstones (rowPkString pk)) < c) (h : Carried W D spec s) :
    Carried W D spec ((Action.delete pk d signer).apply sha256 spec schema s) := by
  obtain ⟨fate, moved, s', hr, hset⟩ := settleDelete_cases schema s pk d signer
  simp only [Action.apply, hr]
  cases hset with
  | violated => exact h
  | kept hlt =>
    refine ⟨h.live, fun pk' hpk' hc d' hd' => ?_⟩
    by_cases hpk : pk' = pk
    · subst hpk
      rw [hc] at hlt
      exact absurd hlt not_lt_bot
    · have hne := hname.key_ne hpk' hpk
      refine (h.dead pk' hpk' hc d' ?_).tombstonesAfter_of_ne hne
      simpa [hne] using hd'
  | won deleted hle =>
    refine ⟨fun pk' hpk' c' hc' => ?_, fun pk' hpk' hc d' hd' => ?_⟩
    · by_cases hpk : pk' = pk
      · subst hpk
        simp at hc'
      · have hne := hname.key_ne hpk' hpk
        exact (h.live pk' hpk' c' (by simpa [hne] using hc')).clear_of_ne hne
    · by_cases hpk : pk' = pk
      · subst hpk
        refine statedIn_tombstonesAfter (P := fun signer d => D signer pk' d) hd ?_
          (by simpa using hd')
        intro hnot d₀ hd₀
        refine h.dead pk' hpk' ?_ d₀ hd₀
        by_contra hlive
        obtain ⟨c, hc⟩ := Option.ne_none_iff_exists'.mp hlive
        have hcd : (c : WithBot RowClock) ≤ d := by simpa [hc] using hle
        exact hnot ((habove c hc).trans_le hcd)
      · have hne := hname.key_ne hpk' hpk
        refine StatedIn.tombstonesAfter_of_ne (h.dead pk' hpk' ?_ d' ?_) hne
        · simpa [hne] using hc
        · simpa [hne] using hd'

theorem Folded.clock_above (h : Folded sha256 spec schema as s) (hpk : RowName spec pk)
    (hc : s.rowClocks (rowPkString pk) = some c) : toBot (s.rowTombstones (rowPkString pk)) < c := by
  have hagree := h.agrees pk hpk
  rw [hagree.clock, Option.map_eq_some_iff] at hc
  obtain ⟨⟨c', k⟩, hl, rfl⟩ := hc
  have hset := Lib.Lww.run_settled (eventsAt pk as)
  rw [hagree.tomb, hset.tomb]
  exact (hset.live c' k hl).2.2

theorem carried_apply {a : Action} (hfold : Folded sha256 spec schema as s) (hfit : a.Fits spec)
    (hby : a.StatedBy W D) (hnd : ¬ Displaces W s a) (h : Carried W D spec s) :
    Carried W D spec (a.apply sha256 spec schema s) := by
  cases a with
  | write pk c known signer => exact carried_write hfit.1 hby hnd h
  | delete pk d signer => exact carried_delete hfit hby (fun _ hc => hfold.clock_above hfit hc) h

theorem carried_run (hfold : Folded sha256 spec schema as s) (hfit : ∀ b ∈ bs, b.Fits spec)
    (hpass : AllPass sha256 spec schema s bs) (hby : ∀ b ∈ bs, b.StatedBy W D)
    (hnd : Along sha256 spec schema (fun s a => ¬ Displaces W s a) s bs) (h : Carried W D spec s) :
    Carried W D spec (runActions sha256 spec schema s bs) := by
  induction bs generalizing as s with
  | nil => exact h
  | cons b bs ih =>
    have hb := List.mem_cons_self (a := b) (l := bs)
    exact ih (hfold.step (hfit b hb) hpass.1) (fun b' hb' => hfit b' (List.mem_cons_of_mem _ hb'))
      hpass.2 (fun b' hb' => hby b' (List.mem_cons_of_mem _ hb')) hnd.2
      (carried_apply hfold (hfit b hb) (hby b hb) hnd.1 h)

end Carried

end RagRat.TableSync
