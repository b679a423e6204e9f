/-
  File:      RagRat/Account/Projection.lean
  Subject:   WHAT A NODE ACCEPTS of the entries it holds: the fold decides each entry by itself, then one
             run of effective entries is kept per chain, and an entry whose authority was not kept goes
             with it. Whatever is dropped takes no part in the next round.

  * `selectCoherentBranches` -- one run per log and device, from slot 0, the lowest hash at each slot;
  * `closeSelectionOverAuthority` -- an entry stays only with the incarnation it cites;
  * `deriveAccountProjection` -- rounds of fold and selection until nothing more is dropped;
    `deriveAccountProjection_ends` -- the rounds end, and every loop within them.
-/
import Mathlib.Data.Finset.Card
import RagRat.Account.Closing

namespace RagRat.Account

open Lib.Loop
open Lib.Cbor (Bytes)

/-! ## 1. Branches -/

section

variable (rows : List VerifiedAccountEntry) (effective : Finset EntryHash)

/-- The effective entries of a chain at a slot, after this parent. -/
def childrenAt (log : Nat)
    (device : DeviceFingerprint) (parent : Option EntryHash) (seq : Nat) : List EntryHash :=
  (rows.filter fun e => e.entryHash ∈ effective ∧ e.header.logId = log ∧
    e.header.deviceFingerprint = device ∧ e.header.prevHash = parent ∧ e.header.seq = seq).map
      (·.entryHash)

/-- One run of a chain, slot by slot. -/
def walkBranch (log : Nat)
    (device : DeviceFingerprint) : Nat → Nat → Option EntryHash → List EntryHash
  | 0, _, _ => []
  | slots + 1, seq, parent =>
    match (childrenAt rows effective log device parent seq).min? with
    | none => []
    | some winner => winner :: walkBranch log device slots (seq + 1) (some winner)

/-- One run of effective entries for each log and device. -/
def selectCoherentBranches :
    Finset EntryHash :=
  ((rows.filter (·.entryHash ∈ effective)).flatMap fun e =>
    walkBranch rows effective e.header.logId e.header.deviceFingerprint (rows.length + 1) 0
      none).toFinset

end

/-- The entry cites an incarnation that is not selected. -/
def unsupported (selected : Finset EntryHash) (e : VerifiedAccountEntry) : Bool :=
  e.entryHash ∈ selected ∧ e.header.authorityRef.any (· ∉ selected)

section

variable (rows : List VerifiedAccountEntry) (selected : Finset EntryHash)

/-- A turn: the entries without their incarnation go. -/
def authorityTurn :
    Finset EntryHash ⊕ Finset EntryHash :=
  let invalid := rows.filter (unsupported selected)
  if invalid.isEmpty then .inr selected
  else .inl (selected \ (invalid.map (·.entryHash)).toFinset)

/-- Turns until every entry has its incarnation; `authority_isSome`. -/
def closeSelectionOverAuthority :
    Finset EntryHash :=
  (loop (authorityTurn rows) (rows.length + 1) selected).getD selected

theorem authority_isSome : (loop (authorityTurn rows) (rows.length + 1) selected).isSome := by
  refine loop_isSome (fun _ => True) (fun s => (rows.filter (·.entryHash ∈ s)).length)
    (fun s s' _ hgo => ⟨trivial, ?_⟩) trivial (Nat.lt_succ_of_le (List.length_filter_le _ _))
  unfold authorityTurn at hgo
  dsimp only at hgo
  split at hgo
  · cases hgo
  · rename_i hne
    cases hgo
    obtain ⟨e, he⟩ := List.exists_mem_of_ne_nil _ (mt List.isEmpty_iff.mpr hne)
    obtain ⟨hmem, hbad⟩ := List.mem_filter.mp he
    refine length_filter_lt (fun x hx => ?_) hmem (decide_eq_true (of_decide_eq_true hbad).1) (decide_eq_false ?_)
    · exact decide_eq_true (Finset.mem_sdiff.mp (of_decide_eq_true hx)).1
    · exact fun hin => (Finset.mem_sdiff.mp hin).2 (List.mem_toFinset.mpr (List.mem_map_of_mem he))

end

/-! ## 2. The projection -/

/-- What a node accepts, and what it set aside. -/
structure AccountProjection where
  history : AccountAuthHistory
  accepted : Finset EntryHash
  forked : Finset EntryHash

/-- The entries a fold leaves effective. -/
def effectiveEntries (rows : List VerifiedAccountEntry) (forked : Finset EntryHash)
    (history : AccountAuthHistory) : Finset EntryHash :=
  ((rows.filter fun e => e.entryHash ∉ forked ∧ history.outcomes.isEffective e.entryHash).map
    (·.entryHash)).toFinset

section

variable (sha256 : Bytes → Bytes32) (rows : List VerifiedAccountEntry)

/-- A round: what is effective and not accepted is dropped, and another round follows. -/
def projectionTurn
    (forked : Finset EntryHash) : Finset EntryHash ⊕ Option AccountProjection :=
  match foldAccountTraced sha256 (rows.filter (·.entryHash ∉ forked)) with
  | none => .inr none
  | some result =>
    let effective := effectiveEntries rows forked result.history
    let accepted := closeSelectionOverAuthority rows (selectCoherentBranches rows effective)
    if effective \ accepted = ∅ then .inr (some ⟨result.history, accepted, forked⟩)
    else .inl (forked ∪ effective \ accepted)

/-- **Rounds of fold and selection**, until nothing more is dropped. -/
def deriveAccountProjection :
    Option AccountProjection :=
  (loop (projectionTurn sha256 rows) (rows.length + 1) ∅).join

end

/-- The rows that are not forked yet. -/
def remaining (rows : List VerifiedAccountEntry) (forked : Finset EntryHash) : Nat :=
  (rows.filter (·.entryHash ∉ forked)).length

theorem projectionTurn_cases (sha256 : Bytes → Bytes32) (rows : List VerifiedAccountEntry)
    (forked : Finset EntryHash) : (∃ p, projectionTurn sha256 rows forked = .inr (some p)) ∨
      ∃ forked', projectionTurn sha256 rows forked = .inl forked' ∧
        remaining rows forked' < remaining rows forked := by
  obtain ⟨result, hfold⟩ := Option.isSome_iff_exists.mp
    (foldAccountTraced_isSome sha256 (rows.filter (·.entryHash ∉ forked)))
  simp only [projectionTurn, hfold]
  split
  · exact .inl ⟨_, rfl⟩
  · rename_i hne
    obtain ⟨h, hh⟩ := Finset.nonempty_iff_ne_empty.mpr hne
    obtain ⟨e, he, rfl⟩ := List.mem_map.mp (List.mem_toFinset.mp (Finset.mem_sdiff.mp hh).1)
    obtain ⟨hmem, hkeep⟩ := List.mem_filter.mp he
    obtain ⟨hfree, -⟩ := of_decide_eq_true hkeep
    refine .inr ⟨_, rfl, length_filter_lt (fun x hx => ?_) hmem (decide_eq_true hfree) ?_⟩
    · simp only [Finset.mem_union, not_or, decide_eq_true_eq] at hx ⊢
      exact hx.1
    · exact decide_eq_false (not_not.mpr (Finset.mem_union_right _ hh))

theorem rounds_end (sha256 : Bytes → Bytes32) (rows : List VerifiedAccountEntry) {n : Nat}
    {forked : Finset EntryHash} (h : remaining rows forked < n) :
    ∃ p, loop (projectionTurn sha256 rows) n forked = some (some p) := by
  induction n generalizing forked with
  | zero => exact absurd h (Nat.not_lt_zero _)
  | succ n ih =>
    obtain ⟨p, hp⟩ | ⟨forked', hgo, hless⟩ := projectionTurn_cases sha256 rows forked
    · exact ⟨p, loop_succ_inr hp n⟩
    · rw [loop_succ_inl hgo]
      exact ih (by omega)

/-- **The derivation ends**: its rounds do, the passes of every fold, and in each pass the sweeps,
    the rounds of the closing and the searches for a circle of cuts, all within their bounds; so do
    the turns of a selection. -/
theorem deriveAccountProjection_ends (sha256 : Bytes → Bytes32) (rows : List VerifiedAccountEntry) :
    (deriveAccountProjection sha256 rows).isSome ∧ (∀ entries, (foldAccountTraced sha256 entries).isSome) ∧
      (∀ cs o, (loop (settleTurn cs) (cs.length + 1) o).isSome) ∧
      (∀ cs credits o, (loop (closeTurn cs credits) (cs.length + 1) (o, fun _ => none)).isSome) ∧
      (∀ admitted view colour (start : Fin admitted.length), (loop (searchTurn (condemnEdges admitted view))
        (admitted.length * (admitted.length + 2) + 1) ⟨Function.update colour start 1, [(start.val, 0)]⟩).isSome) ∧
      ∀ selected, (loop (authorityTurn rows) (rows.length + 1) selected).isSome := by
  refine ⟨?_, foldAccountTraced_isSome sha256, settle_isSome, fun cs credits o => ?_, fun admitted view colour start =>
    search_isSome (fun i => (condemnEdges_bounded admitted view i).1) (fun i => (condemnEdges_bounded admitted view i).2)
      start.isLt colour, authority_isSome rows⟩
  · obtain ⟨p, hp⟩ := @rounds_end sha256 rows (rows.length + 1) ∅ (Nat.lt_succ_of_le (List.length_filter_le _ _))
    rw [deriveAccountProjection, hp]
    rfl
  · obtain ⟨s, -, hs⟩ := @close_ends cs o credits (fun _ => True) (fun _ _ _ => trivial) trivial
    rw [hs]
    rfl

end RagRat.Account
