/-
  File:      RagRat/Content/LamportClamp.lean
  Subject:   THE LAMPORT CLAMP of a content refold: which would-be-accepted entries keep their place, and
             the stream clock that comes out.

  * `monotonicityCuts` -- each chain is cut where its lamport first fails to rise;
  * `boundedAdvanceWalk` -- one pass over the entries and the condemned rows by `(lamport, hash)`: a row
    further than the bound above the running maximum does not raise it, and an entry that far cuts its
    chain.

  The walk's running maximum is a climb (`Lib.Climb`) over the rows the chain cuts leave, and the entries it
  demotes are those above its end (`foldl_boundedAdvanceStep`). A row that turns from an entry into a
  condemned row still bears the climb (`lamportAdvanceClamped_revoke`).
-/
import Mathlib.Data.Finset.Basic
import Mathlib.Data.Prod.Lex
import Mathlib.Data.ZMod.Defs
import RagRat.Common
import RagRat.Lib.Climb
import RagRat.Lib.Register

namespace RagRat.Content

open List
open Lib.Climb Lib.Register

variable {s : StreamState} {r e : Row} {a h x : ContentEntryHeader} {l : List ContentEntryHeader}
  {moved : Finset EntryHash}

/-! ## 1. Entries and chains -/

/-- What the clamp reads of an entry. -/
structure ContentEntryHeader where
  streamId : StreamId
  authorAccountId : Bytes32
  deviceFingerprint : DeviceFingerprint
  seq : Nat
  lamport : Fin (2 ^ 64)
  deriving DecidableEq

/-- A device's chain in a stream. -/
structure ChainCoordinate where
  streamId : StreamId
  authorAccountId : Bytes32
  deviceFingerprint : DeviceFingerprint
  deriving DecidableEq

open ChainCoordinate

/-- The chain of an entry. -/
def ChainCoordinate.of (h : ContentEntryHeader) : ChainCoordinate :=
  ⟨h.streamId, h.authorAccountId, h.deviceFingerprint⟩

/-- An entry with its hash. -/
abbrev Row := EntryHash × ContentEntryHeader

/-- From which `seq` on a chain is cut. -/
abbrev Cuts := ChainCoordinate → Option Nat

/-- The entry stands at or above its chain's cut. -/
def Cuts.covers (cut : Cuts) (h : ContentEntryHeader) : Bool :=
  (cut (.of h)).any (· ≤ h.seq)

/-- How far above the clock an entry may lie. -/
def maxLamportAdvance : Nat := 2 ^ 32

/-- `running_max.saturating_add(MAX_LAMPORT_ADVANCE)` on a `u64`. -/
def reach (runningMax : Nat) : Nat := min (runningMax + maxLamportAdvance) (2 ^ 64 - 1)

theorem le_reach (l : Fin (2 ^ 64)) (runningMax : Nat) :
    l.val ≤ reach runningMax ↔ l.val ≤ runningMax + maxLamportAdvance := by
  have := l.isLt
  unfold reach
  omega

/-! ## 2. The two passes -/

/-- The `seq` of the first member whose lamport is not above the one before it. -/
def firstBackstep : List ContentEntryHeader → Option Nat
  | a :: b :: rest => if b.lamport ≤ a.lamport then some b.seq else firstBackstep (b :: rest)
  | _ => none

/-- A chain's members in the order of their `seq`. -/
def members (entries : List Row) (c : ChainCoordinate) : List ContentEntryHeader :=
  sorted (·.seq) ((entries.map (·.2)).filter fun h => .of h = c)

/-- Each chain's first backward step. -/
def monotonicityCuts (entries : List Row) : Cuts := fun c => firstBackstep (members entries c)

/-- One row of the walk; the flag tells an entry from a condemned row, which is never cut. -/
def boundedAdvanceStep (s : Cuts × Nat) (row : Row × Bool) : Cuts × Nat :=
  let h := row.1.2
  if !row.2 then
    (s.1, if h.lamport.val ≤ reach s.2 then max s.2 h.lamport else s.2)
  else if s.1.covers h then s
  else if reach s.2 < h.lamport.val then
    (Function.update s.1 (.of h) (some (min ((s.1 (.of h)).getD h.seq) h.seq)), s.2)
  else (s.1, max s.2 h.lamport)

/-- The entries and the condemned rows by `(lamport, entry_hash)`. -/
def walkRows (entries floor : List Row) : List (Row × Bool) :=
  sorted (fun row => toLex (row.1.2.lamport, row.1.1)) (entries.map (·, true) ++ floor.map (·, false))

/-- The walk over entries and condemned rows. -/
def boundedAdvanceWalk (entries floor : List Row) (cut : Cuts) : Cuts × Nat :=
  (walkRows entries floor).foldl boundedAdvanceStep (cut, 0)

/-- The entries a cut takes. -/
def chainCutDemotions (entries : List Row) (cut : Cuts) : Finset EntryHash :=
  ((entries.filter fun e => cut.covers e.2).map (·.1)).toFinset

/-- What is kept, what waits, and the clock. -/
structure Clamped where
  accepted : Finset EntryHash
  parked : Finset EntryHash
  clock : Nat

/-- The rows of a stream and which were accepted: one row to a hash, one accepted entry at a `seq`.
    -/
structure StreamState where
  resolved : List Row
  accepted : Finset EntryHash
  distinct : (resolved.map (·.1)).Nodup
  oneSlot : ∀ a ∈ resolved, ∀ b ∈ resolved, a.1 ∈ accepted → b.1 ∈ accepted →
    of a.2 = .of b.2 → a.2.seq = b.2.seq → a = b

open StreamState

namespace StreamState

/-- The entries that would be accepted. -/
def entries (s : StreamState) : List Row := s.resolved.filter fun r => r.1 ∈ s.accepted

/-- **The clamp.** -/
def lamportAdvanceClamped (s : StreamState) (condemned : List Row) : Clamped :=
  let walk := boundedAdvanceWalk s.entries condemned (monotonicityCuts s.entries)
  let parked := chainCutDemotions s.entries walk.1
  { accepted := s.accepted \ parked, parked := parked, clock := walk.2 }

theorem mem_entries : r ∈ s.entries ↔ r ∈ s.resolved ∧ r.1 ∈ s.accepted := by
  simp [entries]

theorem entries_slot {a b : Row} (ha : a ∈ s.entries) (hb : b ∈ s.entries)
    (hc : of a.2 = .of b.2) (hseq : a.2.seq = b.2.seq) : a = b :=
  s.oneSlot a (mem_entries.mp ha).1 b (mem_entries.mp hb).1 (mem_entries.mp ha).2
    (mem_entries.mp hb).2 hc hseq

end StreamState

/-! ## 3. Where a chain rises -/

/-- Up to the entry, its chain's lamport rises with the `seq`. -/
def Rising (entries : List Row) (e : ContentEntryHeader) : Prop :=
  ∀ a ∈ entries, ∀ b ∈ entries, of a.2 = .of e → of b.2 = .of e →
    a.2.seq < b.2.seq → b.2.seq ≤ e.seq → a.2.lamport < b.2.lamport

/-- The members up to `n` rise. -/
def RisingTo (l : List ContentEntryHeader) (n : Nat) : Prop :=
  ∀ a ∈ l, ∀ b ∈ l, a.seq < b.seq → b.seq ≤ n → a.lamport < b.lamport

theorem risingTo_cons {n : Nat} (ha : ∀ y ∈ l, a.seq < y.seq) :
    RisingTo (a :: l) n ↔ (∀ y ∈ l, y.seq ≤ n → a.lamport < y.lamport) ∧ RisingTo l n := by
  constructor
  · intro h
    refine ⟨fun y hy hn => h a mem_cons_self y (mem_cons_of_mem _ hy) (ha y hy) hn, ?_⟩
    exact fun x hx y hy => h x (mem_cons_of_mem _ hx) y (mem_cons_of_mem _ hy)
  · rintro ⟨hhead, htail⟩ x hx y hy hlt hn
    rcases mem_cons.mp hx with rfl | hx' <;> rcases mem_cons.mp hy with rfl | hy'
    · exact absurd hlt (lt_irrefl _)
    · exact hhead y hy' hn
    · exact absurd (ha x hx') (by omega)
    · exact htail x hx' y hy' hlt hn

/-- **The first backward step bounds the rising part**, in a chain with one entry at a `seq`. -/
theorem firstBackstep_le_iff (hl : l.Pairwise (·.seq < ·.seq)) (n : Nat) :
    (firstBackstep l).any (· ≤ n) = true ↔ ¬ RisingTo l n := by
  induction l with
  | nil => simp [firstBackstep, RisingTo]
  | cons a l ih =>
    obtain ⟨ha, hrest⟩ := pairwise_cons.mp hl
    rw [risingTo_cons ha]
    cases l with
    | nil => simp [firstBackstep, RisingTo]
    | cons b rest =>
      have hb := (pairwise_cons.mp hrest).1
      by_cases hback : b.lamport ≤ a.lamport
      · simp only [firstBackstep, if_pos hback, Option.any_some, decide_eq_true_eq]
        refine ⟨fun hn h => not_lt.mpr hback (h.1 b mem_cons_self hn), fun h => ?_⟩
        -- were the step above `n`, so would be everything after it
        by_contra hn
        have habove : ∀ y ∈ b :: rest, n < y.seq := by
          intro y hy
          rcases mem_cons.mp hy with rfl | hy
          · omega
          · have := hb y hy
            omega
        refine h ⟨fun y hy hyn => ?_, fun x _ y hy _ hyn => ?_⟩
        · exact absurd hyn (not_le.mpr (habove y hy))
        · exact absurd hyn (not_le.mpr (habove y hy))
      · simp only [firstBackstep, if_neg hback]
        rw [ih hrest]
        refine not_congr ⟨fun h => ⟨fun y hy hyn => ?_, h⟩, fun h => h.2⟩
        -- from the head the lamport rises to `b`, and from there on
        rcases mem_cons.mp hy with rfl | hy'
        · exact not_le.mp hback
        · exact (not_le.mp hback).trans (h b mem_cons_self y hy (hb y hy') hyn)

theorem mem_members {entries : List Row} {c : ChainCoordinate} :
    h ∈ members entries c ↔ (∃ e ∈ entries, e.2 = h) ∧ .of h = c := by
  simp [members, mem_sorted]

theorem members_ascend (s : StreamState) (c : ChainCoordinate) :
    (members s.entries c).Pairwise (·.seq < ·.seq) := by
  have hnodup : s.entries.Nodup := s.distinct.of_map.filter _
  have hdiff : ((s.entries.map (·.2)).filter fun h => .of h = c).Pairwise
      fun a b => a.seq ≠ b.seq := by
    rw [pairwise_filter, pairwise_map]
    refine hnodup.imp_of_mem fun {a b} ha hb hne hac hbc hseq => hne ?_
    have hac : of a.2 = c := of_decide_eq_true hac
    have hbc : of b.2 = c := of_decide_eq_true hbc
    exact entries_slot ha hb (hac.trans hbc.symm) hseq
  exact sorted_strict _ hdiff

theorem monotonicityCuts_covers (s : StreamState) (e : ContentEntryHeader) :
    (monotonicityCuts s.entries).covers e = true ↔ ¬ Rising s.entries e := by
  unfold Cuts.covers monotonicityCuts
  rw [firstBackstep_le_iff (members_ascend s _)]
  refine not_congr ⟨fun h a ha b hb hac hbc => ?_, fun h a ha b hb => ?_⟩
  · exact h a.2 (mem_members.mpr ⟨⟨a, ha, rfl⟩, hac⟩) b.2 (mem_members.mpr ⟨⟨b, hb, rfl⟩, hbc⟩)
  · obtain ⟨⟨a, ha', rfl⟩, hac⟩ := mem_members.mp ha
    obtain ⟨⟨b, hb', rfl⟩, hbc⟩ := mem_members.mp hb
    exact h a ha' b hb' hac hbc

/-! ## 4. The walk -/

/-- The rows the cuts leave: every condemned one, and the entries below their chain's cut. -/
def live (cut : Cuts) (row : Row × Bool) : Bool := !(row.2 && cut.covers row.1.2)

/-- The lamports of the rows the cuts leave. -/
def rungs (cut : Cuts) (rows : List (Row × Bool)) : List Nat :=
  (rows.filter (live cut)).map fun row => row.1.2.lamport.val

theorem covers_update (cut : Cuts) (x h : ContentEntryHeader) :
    Cuts.covers (Function.update cut (.of x) (some (min ((cut (.of x)).getD x.seq) x.seq))) h = true ↔
      cut.covers h = true ∨ (of x = .of h ∧ x.seq ≤ h.seq) := by
  unfold Cuts.covers
  by_cases hc : of x = .of h
  · rw [← hc, Function.update_self]
    cases cut (.of x) <;> simp
  · rw [Function.update_of_ne (Ne.symm hc)]
    simp [hc]

theorem boundedAdvanceStep_cases (s : Cuts × Nat) (row : Row × Bool) :
    (live s.1 row = false ∧ boundedAdvanceStep s row = s) ∨
    (live s.1 row = true ∧ (row.2 = true → row.1.2.lamport.val ≤ s.2 + maxLamportAdvance) ∧
      boundedAdvanceStep s row = (s.1, rise maxLamportAdvance s.2 row.1.2.lamport)) ∨
    (live s.1 row = true ∧ row.2 = true ∧ s.2 + maxLamportAdvance < row.1.2.lamport.val ∧
      boundedAdvanceStep s row =
        (Function.update s.1 (.of row.1.2) (some (min ((s.1 (.of row.1.2)).getD row.1.2.seq)
          row.1.2.seq)), s.2)) := by
  obtain ⟨⟨hash, h⟩, demotable⟩ := row
  have hreach := le_reach h.lamport s.2
  cases demotable with
  | false =>
    refine .inr (.inl ⟨rfl, nofun, ?_⟩)
    simp only [boundedAdvanceStep, rise, hreach, Bool.not_false, if_true]
  | true =>
    by_cases hcov : s.1.covers h = true
    · exact .inl ⟨by simp [live, hcov], by simp [boundedAdvanceStep, hcov]⟩
    have hlive : live s.1 ((hash, h), true) = true := by simp [live, hcov]
    by_cases hle : h.lamport.val ≤ s.2 + maxLamportAdvance
    · refine .inr (.inl ⟨hlive, fun _ => hle, ?_⟩)
      have hnot : ¬ reach s.2 < h.lamport.val := not_lt.mpr (hreach.mpr hle)
      simp [boundedAdvanceStep, hcov, hnot, rise, hle]
    · have hlt : reach s.2 < h.lamport.val := not_le.mp fun hr => hle (hreach.mp hr)
      refine .inr (.inr ⟨hlive, rfl, not_le.mp hle, ?_⟩)
      simp [boundedAdvanceStep, hcov, hlt]

theorem Cuts.covers_of_le {cut : Cuts} (hx : cut.covers x = true)
    (hc : of x = .of h) (hle : x.seq ≤ h.seq) : cut.covers h = true := by
  unfold Cuts.covers at hx ⊢
  obtain ⟨n, hn, hnx⟩ := (Option.any_eq_true _ _).mp hx
  exact (Option.any_eq_true _ _).mpr ⟨n, hc ▸ hn, decide_eq_true ((of_decide_eq_true hnx).trans hle)⟩

/-- **The walk**: its maximum is the climb over the rows the cuts leave, and it cuts above exactly the
    entries that lie above the end of the climb. -/
theorem foldl_boundedAdvanceStep {rows : List (Row × Bool)}
    (hs : rows.Pairwise (·.1.2.lamport ≤ ·.1.2.lamport)) (cut : Cuts) (r : Nat) :
    (rows.foldl boundedAdvanceStep (cut, r)).2 = climb maxLamportAdvance r (rungs cut rows) ∧
    ∀ h, (rows.foldl boundedAdvanceStep (cut, r)).1.covers h = true ↔
      cut.covers h = true ∨ ∃ row ∈ rows, row.2 = true ∧
        climb maxLamportAdvance r (rungs cut rows) < row.1.2.lamport ∧
        ChainCoordinate.of row.1.2 = .of h ∧ row.1.2.seq ≤ h.seq := by
  induction rows generalizing cut r with
  | nil => simp [rungs, climb]
  | cons x rows ih =>
    obtain ⟨hx, hs⟩ := pairwise_cons.mp hs
    simp only [foldl_cons, exists_mem_cons_iff]
    rcases boundedAdvanceStep_cases (cut, r) x with
      ⟨hlive, hstep⟩ | ⟨hlive, htaken, hstep⟩ | ⟨hlive, hdem, hfar, hstep⟩
    · -- at or above its chain's cut already
      have hcov : x.2 = true ∧ cut.covers x.1.2 = true := by simpa [live] using hlive
      have hrungs : rungs cut (x :: rows) = rungs cut rows := by
        unfold rungs
        rw [filter_cons_of_neg (by rw [hlive]; exact Bool.false_ne_true)]
      rw [hstep, hrungs]
      refine ⟨(ih hs cut r).1, fun h => ((ih hs cut r).2 h).trans ⟨Or.imp_right .inr, ?_⟩⟩
      rintro (hc | ⟨-, -, hchain, hseq⟩ | hlater)
      · exact .inl hc
      · exact .inl (Cuts.covers_of_le hcov.2 hchain hseq)
      · exact .inr hlater
    · rw [hstep, rungs, filter_cons_of_pos hlive, map_cons, ← rungs]
      refine ⟨(ih hs cut _).1, fun h => ((ih hs cut _).2 h).trans (or_congr_right (or_iff_right ?_).symm)⟩
      -- an entry that was taken is not above the end
      rintro ⟨hdem, hlt, -⟩
      have hle : x.1.2.lamport.val ≤ rise maxLamportAdvance r x.1.2.lamport := by
        unfold rise
        rw [if_pos (htaken hdem)]
        exact le_max_right _ _
      exact absurd (hle.trans (le_climb _ (rungs cut rows))) (not_le.mpr hlt)
    · -- out of reach, and with it every later row
      have hall : ∀ cut', ∀ l ∈ rungs cut' (x :: rows), r + maxLamportAdvance < l := by
        intro cut' l hl
        obtain ⟨row, hrow, rfl⟩ := mem_map.mp hl
        rcases mem_cons.mp (mem_of_mem_filter hrow) with rfl | hrow
        · exact hfar
        · exact lt_of_lt_of_le hfar (hx row hrow)
      have hsub : ∀ cut', ∀ l ∈ rungs cut' rows, r + maxLamportAdvance < l := fun cut' l hl =>
        hall cut' l (((sublist_cons_self x rows).filter _ |>.map _).subset hl)
      rw [hstep, climb_of_far (hall cut)]
      obtain ⟨hclock, hcovers⟩ := ih hs
        (Function.update cut (.of x.1.2) (some (min ((cut (.of x.1.2)).getD x.1.2.seq) x.1.2.seq))) r
      rw [climb_of_far (hsub _)] at hclock hcovers
      refine ⟨hclock, fun h => ?_⟩
      rw [hcovers h, covers_update, or_assoc]
      exact or_congr_right (or_congr_left ⟨fun hc => ⟨hdem, by omega, hc⟩, fun hc => hc.2.2⟩)

theorem mem_walkRows {entries floor : List Row} {row : Row × Bool} :
    row ∈ walkRows entries floor ↔
      (row.1 ∈ entries ∧ row.2 = true) ∨ (row.1 ∈ floor ∧ row.2 = false) := by
  obtain ⟨r, b⟩ := row
  unfold walkRows
  rw [mem_sorted]
  cases b <;> simp

theorem walkRows_ascend (entries floor : List Row) :
    (walkRows entries floor).Pairwise (·.1.2.lamport ≤ ·.1.2.lamport) := by
  refine (pairwise_sorted _ _).imp fun {a b} h => ?_
  exact Prod.Lex.monotone_fst (toLex (a.1.2.lamport, a.1.1)) (toLex (b.1.2.lamport, b.1.1)) h

/-! ## 5. What the clamp keeps -/

namespace StreamState

variable (s : StreamState) (condemned : List Row)

/-- A lamport the clock can stand on: of an entry its chain rises to, or of a condemned row. -/
def Rung (l : Nat) : Prop :=
  (∃ e ∈ s.entries, Rising s.entries e.2 ∧ e.2.lamport.val = l) ∨ ∃ f ∈ condemned, f.2.lamport.val = l

theorem mem_rungs {l : Nat} :
    l ∈ rungs (monotonicityCuts s.entries) (walkRows s.entries condemned) ↔ s.Rung condemned l := by
  have hrise : ∀ e, (monotonicityCuts s.entries).covers e = false ↔ Rising s.entries e := by
    intro e
    rw [← Bool.not_eq_true, monotonicityCuts_covers, not_not]
  simp only [rungs, mem_map, mem_filter, mem_walkRows, live, Rung]
  constructor
  · rintro ⟨⟨r, b⟩, ⟨⟨hr, rfl⟩ | ⟨hr, rfl⟩, hlive⟩, rfl⟩
    · exact .inl ⟨r, hr, (hrise _).mp (by simpa using hlive), rfl⟩
    · exact .inr ⟨r, hr, rfl⟩
  · rintro (⟨e, he, hr, rfl⟩ | ⟨f, hf, rfl⟩)
    · exact ⟨(e, true), ⟨.inl ⟨he, rfl⟩, by simp [(hrise _).mpr hr]⟩, rfl⟩
    · exact ⟨(f, false), ⟨.inr ⟨hf, rfl⟩, rfl⟩, rfl⟩

theorem clock_eq : (s.lamportAdvanceClamped condemned).clock =
    climb maxLamportAdvance 0 (rungs (monotonicityCuts s.entries) (walkRows s.entries condemned)) :=
  (foldl_boundedAdvanceStep (walkRows_ascend _ _) _ 0).1

theorem isGreatest_clock :
    IsGreatest {l | Reached maxLamportAdvance (s.Rung condemned) 0 l}
      (s.lamportAdvanceClamped condemned).clock := by
  rw [clock_eq]
  have hs : (rungs (monotonicityCuts s.entries) (walkRows s.entries condemned)).Pairwise (· ≤ ·) :=
    pairwise_map.mpr ((walkRows_ascend _ _).filter _)
  have hset : (· ∈ rungs (monotonicityCuts s.entries) (walkRows s.entries condemned)) =
      s.Rung condemned := funext fun l => propext (s.mem_rungs condemned)
  rw [← hset]
  exact isGreatest_climb hs

theorem covers_iff (he : e ∈ s.entries) :
    (boundedAdvanceWalk s.entries condemned (monotonicityCuts s.entries)).1.covers e.2 = true ↔
      ¬ (Rising s.entries e.2 ∧ e.2.lamport.val ≤ (s.lamportAdvanceClamped condemned).clock) := by
  unfold boundedAdvanceWalk
  rw [(foldl_boundedAdvanceStep (walkRows_ascend _ _) _ 0).2, ← clock_eq, monotonicityCuts_covers]
  constructor
  · rintro (hnot | ⟨row, hrow, hdem, hlt, hchain, hseq⟩)
    · exact fun h => hnot h.1
    · -- a row below on the same chain lies above the clock, and the chain rises from there
      rintro ⟨hrise, hle⟩
      have hmem : row.1 ∈ s.entries := by
        rcases mem_walkRows.mp hrow with h | h
        · exact h.1
        · exact absurd (hdem.symm.trans h.2) (by decide)
      rcases hseq.lt_or_eq with hseq | hseq
      · have hlt' := hrise row.1 hmem e he hchain rfl hseq (le_refl _)
        have : row.1.2.lamport.val < e.2.lamport.val := hlt'
        omega
      · rw [s.entries_slot hmem he hchain hseq] at hlt
        omega
  · intro hnot
    by_cases hrise : Rising s.entries e.2
    · exact .inr ⟨(e, true), mem_walkRows.mpr (.inl ⟨he, rfl⟩), rfl,
        not_le.mp fun hle => hnot ⟨hrise, hle⟩, rfl, le_refl _⟩
    · exact .inl hrise

theorem mem_parked {h : EntryHash} : h ∈ (s.lamportAdvanceClamped condemned).parked ↔
    ∃ e ∈ s.entries, e.1 = h ∧
      ¬ (Rising s.entries e.2 ∧ e.2.lamport.val ≤ (s.lamportAdvanceClamped condemned).clock) := by
  simp only [lamportAdvanceClamped, chainCutDemotions, mem_toFinset, mem_map, mem_filter]
  constructor
  · rintro ⟨e, ⟨he, hcov⟩, rfl⟩
    exact ⟨e, he, rfl, (s.covers_iff condemned he).mp hcov⟩
  · rintro ⟨e, he, rfl, hnot⟩
    exact ⟨e, ⟨he, (s.covers_iff condemned he).mpr hnot⟩, rfl⟩

theorem mem_kept (he : e ∈ s.entries) :
    e.1 ∈ (s.lamportAdvanceClamped condemned).accepted ↔
      Rising s.entries e.2 ∧ e.2.lamport.val ≤ (s.lamportAdvanceClamped condemned).clock := by
  have hacc : e.1 ∈ s.accepted := (mem_entries.mp he).2
  have hrow : ∀ e' ∈ s.entries, e'.1 = e.1 → e' = e := fun e' he' heq =>
    inj_on_of_nodup_map s.distinct (mem_entries.mp he').1 (mem_entries.mp he).1 heq
  show e.1 ∈ s.accepted \ (s.lamportAdvanceClamped condemned).parked ↔ _
  rw [Finset.mem_sdiff, mem_parked]
  constructor
  · exact fun ⟨_, hnot⟩ => by_contra fun h => hnot ⟨e, he, rfl, h⟩
  · refine fun h => ⟨hacc, ?_⟩
    rintro ⟨e', he', heq, hnot⟩
    exact hnot (by rwa [hrow e' he' heq])

end StreamState

/-- **THE CLAMP IS EXACT.** Of the accepted entries it keeps those their chain rises to that are not above
    the resulting clock; the clock is the greatest lamport that steps of at most the bound lead to from 0,
    over the kept entries and the condemned rows; and it is at most that bound for every row. -/
theorem lamportAdvanceClamped_exact (s : StreamState) (condemned : List Row) :
    let out := s.lamportAdvanceClamped condemned
    out.accepted ⊆ s.accepted ∧ out.parked = s.accepted \ out.accepted ∧
    (∀ e ∈ s.entries, e.1 ∈ out.accepted ↔ Rising s.entries e.2 ∧ e.2.lamport.val ≤ out.clock) ∧
    IsGreatest {l | Reached (2 ^ 32) (fun l => (∃ e ∈ s.entries, e.1 ∈ out.accepted ∧
        e.2.lamport.val = l) ∨ ∃ f ∈ condemned, f.2.lamport.val = l) 0 l} out.clock ∧
    out.clock ≤ (s.entries.length + condemned.length) * 2 ^ 32 := by
  have hgreat := s.isGreatest_clock condemned
  refine ⟨Finset.sdiff_subset, ?_, fun e he => s.mem_kept condemned he, ⟨?_, ?_⟩, ?_⟩
  · -- what is parked was accepted
    have hsub : (s.lamportAdvanceClamped condemned).parked ⊆ s.accepted := by
      intro h hh
      obtain ⟨e, he, rfl, -⟩ := (s.mem_parked condemned).mp hh
      exact (StreamState.mem_entries.mp he).2
    exact (Finset.sdiff_sdiff_eq_self hsub).symm
  · refine hgreat.1.imp (fun l hl => hgreat.2 hl) fun l hl hle => ?_
    rcases hl with ⟨e, he, hrise, rfl⟩ | hf
    · exact .inl ⟨e, he, (s.mem_kept condemned he).mpr ⟨hrise, hle⟩, rfl⟩
    · exact .inr hf
  · intro l hl
    refine hgreat.2 (hl.mono fun l hl => ?_)
    rcases hl with ⟨e, he, hkept, rfl⟩ | hf
    · exact .inl ⟨e, he, ((s.mem_kept condemned he).mp hkept).1, rfl⟩
    · exact .inr hf
  · have hlen : (rungs (monotonicityCuts s.entries) (walkRows s.entries condemned)).length ≤
        s.entries.length + condemned.length := by
      unfold rungs walkRows
      rw [length_map]
      refine (length_filter_le _ _).trans (le_of_eq ?_)
      rw [(sorted_perm _ _).length_eq]
      simp
    rw [clock_eq]
    refine (climb_le 0 _).trans ?_
    rw [Nat.zero_add]
    exact Nat.mul_le_mul_right _ hlen

/-! ## 6. A later revocation -/

namespace StreamState

/-- The stream once some of its entries are no longer accepted. -/
def without (s : StreamState) (moved : Finset EntryHash) : StreamState where
  resolved := s.resolved
  accepted := s.accepted \ moved
  distinct := s.distinct
  oneSlot := fun a ha b hb hma hmb =>
    s.oneSlot a ha b hb (Finset.sdiff_subset hma) (Finset.sdiff_subset hmb)

theorem mem_entries_without : e ∈ (s.without moved).entries ↔ e ∈ s.entries ∧ e.1 ∉ moved := by
  rw [mem_entries, mem_entries]
  simp [without, and_assoc]

theorem rising_without {e : ContentEntryHeader} (h : Rising s.entries e) :
    Rising (s.without moved).entries e := fun a ha b hb =>
  h a (mem_entries_without.mp ha).1 b (mem_entries_without.mp hb).1

end StreamState

/-- **REVOKING NEVER WEDGES OTHERS.** If entries of the stream turn from accepted into condemned rows, the
    clock does not fall and every other entry the clamp kept is kept. It need not be suffixes of their
    chains that turn. -/
theorem lamportAdvanceClamped_revoke (s : StreamState) (moved : Finset EntryHash)
    (condemned condemned' : List Row)
    (hold : ∀ f ∈ condemned, f ∈ condemned') (hmoved : ∀ e ∈ s.entries, e.1 ∈ moved → e ∈ condemned') :
    let before := s.lamportAdvanceClamped condemned
    let after := (s.without moved).lamportAdvanceClamped condemned'
    before.clock ≤ after.clock ∧ ∀ h ∈ before.accepted, h ∉ moved → h ∈ after.accepted := by
  have hclock : (s.lamportAdvanceClamped condemned).clock ≤
      ((s.without moved).lamportAdvanceClamped condemned').clock := by
    refine ((s.without moved).isGreatest_clock condemned').2
      (Reached.mono (fun l hl => ?_) (s.isGreatest_clock condemned).1)
    rcases hl with ⟨e, he, hrise, rfl⟩ | ⟨f, hf, rfl⟩
    · by_cases hm : e.1 ∈ moved
      · exact .inr ⟨e, hmoved e he hm, rfl⟩
      · exact .inl ⟨e, mem_entries_without.mpr ⟨he, hm⟩, rising_without hrise, rfl⟩
    · exact .inr ⟨f, hold f hf, rfl⟩
  refine ⟨hclock, fun h hh hm => ?_⟩
  obtain ⟨hacc, hnot⟩ := Finset.mem_sdiff.mp hh
  refine Finset.mem_sdiff.mpr ⟨Finset.mem_sdiff.mpr ⟨hacc, hm⟩, fun hp => hnot ?_⟩
  obtain ⟨e, he, rfl, hfail⟩ := ((s.without moved).mem_parked condemned').mp hp
  refine (s.mem_parked condemned).mpr ⟨e, (mem_entries_without.mp he).1, rfl, ?_⟩
  exact fun ⟨hrise, hle⟩ => hfail ⟨rising_without hrise, hle.trans hclock⟩

/-- Two writers of one stream, the second's entry just within the bound of the first's. -/
def bridged : StreamState where
  resolved := [(1, ⟨0, 0, 10, 0, 2 ^ 32⟩), (2, ⟨0, 0, 11, 0, 2 ^ 33⟩)]
  accepted := {1, 2}
  distinct := by decide
  oneSlot := by decide

/-- The first writer is revoked: the second's entry, which only the first's lamport bridges, stays. -/
theorem bridged_revoke :
    (bridged.lamportAdvanceClamped []).clock = 2 ^ 33 ∧
      2 ^ 33 ≤ ((bridged.without {1}).lamportAdvanceClamped [(1, ⟨0, 0, 10, 0, 2 ^ 32⟩)]).clock ∧
      2 ∈ ((bridged.without {1}).lamportAdvanceClamped [(1, ⟨0, 0, 10, 0, 2 ^ 32⟩)]).accepted := by
  have hclock : (bridged.lamportAdvanceClamped []).clock = 2 ^ 33 := by decide +kernel
  have hkept : (2 : EntryHash) ∈ (bridged.lamportAdvanceClamped []).accepted := by decide +kernel
  have h := lamportAdvanceClamped_revoke bridged {1} [] [(1, ⟨0, 0, 10, 0, 2 ^ 32⟩)] (by simp)
    (by decide)
  exact ⟨hclock, hclock ▸ h.1, h.2 2 hkept (by decide)⟩

end RagRat.Content
