/-
  File:      RagRat/TableSync/Engine.lean
  Subject:   THE TABLE-SYNC ENGINE (`engine.rs`, `refold.rs`, and the held entries of `store.rs`):
             ingesting a received entry with everything its acceptance unblocks, replaying a parked
             one, and authoring a local one.

  * `ingestOne`, `drainChildren`, `ingest` -- one entry, the held children of a hash, the whole
    arrival. A drain re-examines an entry it put back, so its loops run under a bound (`none` when it
    runs out);
  * `replayPendingEntry`, `authorAndApply` -- a parked entry looked at again, and a local op minted;
  * `ingest_keeps_unsent_work` -- no arrival and no replay touches a row with unsent local work.

  Left out: the lens lanes an applied row bumps, the diagnostics table, the re-adoption work a replay
  re-arms, and the recorded apply context of a stream, which is the `Scope` here. Recording it the first
  time also copies re-adoption work parked before the stream was known, and enqueueing that work drops
  the suffix coverage of the removed device.
-/
import RagRat.Lib.Loop
import RagRat.TableSync.Guard

namespace RagRat.TableSync

open List
open Lib.Loop (loop loop_isSome loop_rule)
open Function

variable {ctx : SyncCtx} {σ σ' σ₁ : Replica} {a a' b : Arrival} {w w' : Sweep} {parent : EntryHash}
  {promoted : List IngestOutcome} {v : VerifiedEntry} {advertised : Option ChainCursor}
  {t t' : Table}

/-! ## 1. Held entries -/

section

variable (log : ChainLog) (device : DeviceFingerprint) (prev : EntryHash)

/-- The held child of `prev` on the chain that comes first by lamport and hash. -/
def nearestChild :
    Option VerifiedEntry :=
  (log.gapped.filter fun e => e.device = device ∧ e.prevHash = some prev).foldl
    (fun best e => match best with
      | some b => if gapRank e < gapRank b then some e else some b
      | none => some e) none

/-- Take one held child of `prev` out of the log. -/
def takeGappedChild :
    Option (VerifiedEntry × ChainLog) :=
  (nearestChild log device prev).map fun child => (child, log.dropGapped child.entryHash)

end

/-- The hashes whose held children are to go, how many went, and the log. -/
structure Sweep where
  worklist : List EntryHash
  discarded : Nat
  log : ChainLog

/-- One turn of the sweep: the children of the next hash go. -/
def sweepTurn (w : Sweep) : Sweep ⊕ Nat × ChainLog :=
  match w.worklist with
  | [] => .inr (w.discarded, w.log)
  | parent :: rest =>
    let children := w.log.gapped.filter fun e => e.prevHash = some parent
    .inl {
      worklist := (children.map (·.entryHash)).reverse ++ rest
      discarded := w.discarded + children.length
      log := { w.log with gapped := w.log.gapped.filter fun e =>
        e.entryHash ∉ children.map (·.entryHash) } }

/-- Discard every held entry that descends from `root`, on whatever chain; the bound suffices
    (`sweep_isSome`). -/
def discardGappedDescendants (log : ChainLog) (root : EntryHash) : Nat × ChainLog :=
  (loop sweepTurn (log.gapped.length + 2) ⟨[root], 0, log⟩).getD (0, log)

/-- Discard the held entries of other chains that cite `hash`, and everything behind them. -/
def discardForeignChainCitations (log : ChainLog) (ownDevice : DeviceFingerprint)
    (hash : EntryHash) : Nat × ChainLog :=
  (log.gapped.filter fun e => e.prevHash = some hash ∧ e.device ≠ ownDevice).foldl
    (fun acc citation =>
      let behind := discardGappedDescendants (acc.2.dropGapped citation.entryHash) citation.entryHash
      (acc.1 + 1 + behind.1, behind.2)) (0, log)

/-! ## 2. Pending marks -/

namespace ChainLog

/-- Set why a stored entry waits. -/
def setPending (log : ChainLog) (hash : EntryHash) (pending : Option PendingReason) : ChainLog :=
  { log with entries := log.entries.map fun e =>
      if e.entryHash = hash then { e with pending := pending } else e }

/-- A stored entry waits. -/
def markEntryPending (log : ChainLog) (hash : EntryHash) (reason : PendingReason) : ChainLog :=
  log.setPending hash (some reason)

/-- The entry is no longer outstanding: it projects completely, or is quarantined for good. -/
def clearEntryPending (log : ChainLog) (hash : EntryHash) : ChainLog := log.setPending hash none

end ChainLog

/-! ## 3. One entry -/

/-- What an arrival is ingested under: the stream's scope, the gates every pass asks first (account
    control, incarnation, projector), and what the account log says of signers and of the local
    device. -/
structure SyncCtx where
  scope : Scope
  gates : Except String Unit
  effectiveWriter : DeviceFingerprint → Bool
  /-- the local device was at some time enrolled as a writer -/
  everWriter : Bool

/-- What accepting asks. -/
def SyncCtx.acceptCtx (ctx : SyncCtx) : AcceptCtx :=
  ⟨ctx.scope.streamId, ctx.scope.tableNames, ctx.effectiveWriter⟩

/-- What an arrival came to. -/
inductive IngestOutcome where
  | applied
  | retained (reason : PendingReason)
  | alreadyPresent
  | awaitingPredecessor
  | alreadyAwaiting
  | heldChainFull
  | forked
  | abandonedBehindFork
  | quarantined (why : String)
  | unauthorized
  deriving DecidableEq

/-- The entry an acceptance put at the chain's tail. -/
structure AcceptedEntry where
  entryHash : EntryHash
  prevHash : Option EntryHash
  deriving DecidableEq

/-- Hand a stored entry to the applier if the guard lets it pass, else settle what part of it can
    settle now. -/
def settleGuarded (sc : Scope) (t : Table) (σ : Replica) (doubt : RowDoubt) (e : RowEntry) :
    (PendingReason ⊕ ApplyOutcome) × (String → Store) :=
  let s := σ.tables e.op.table
  let applyOp (op : RowOp) :=
    applyRowOpOnStream sc.sha256 t.spec t.schema sc.repoId s op e.opMeta
  match preApply sc.sha256 t.spec σ.log s sc.repoId e.op e.opMeta.lamport doubt with
  | .park reason =>
    match restateSettleableNow sc.sha256 t.spec σ.log s e.op with
    | some now => (.inl reason, update σ.tables e.op.table (applyOp now).2)
    | none => (.inl reason, σ.tables)
  | .apply => (.inr (applyOp e.op).1, update σ.tables e.op.table (applyOp e.op).2)

/-- Record what became of a stored entry. -/
def recordSettled (log : ChainLog) (hash : EntryHash) :
    (PendingReason ⊕ ApplyOutcome) × (String → Store) → IngestOutcome × Replica
  | (.inl reason, tables) => (.retained reason, ⟨log.markEntryPending hash reason, tables⟩)
  | (.inr .applied, tables) | (.inr .superseded, tables) => (.applied, ⟨log, tables⟩)
  | (.inr (.quarantined why _), tables) => (.quarantined why, ⟨log.clearEntryPending hash, tables⟩)
  | (.inr (.unprojectable reason), tables) =>
    (.retained reason, ⟨log.markEntryPending hash reason, tables⟩)

/-- Ingest exactly one entry, with no promotion; the answer names the entry if it was stored. -/
def ingestOne (ctx : SyncCtx) (σ : Replica) (v : VerifiedEntry) (advertised : Option ChainCursor) :
    Except String (IngestOutcome × Option AcceptedEntry × Replica) :=
  match acceptRowEntry ctx.acceptCtx σ.log v advertised with
  | .error why => .error why
  | .ok (.stored e hash prev, log) =>
    match ctx.scope.table? e.op.table with
    | none => .ok (.retained .tableNotInScope, some ⟨hash, prev⟩, { σ with log := log })
    | some t =>
      let doubt := RowDoubt.forLocalDevice ctx.everWriter .deferExceptUnprovableRemoval
      let settled := recordSettled log hash (settleGuarded ctx.scope t { σ with log := log } doubt e)
      .ok (settled.1, some ⟨hash, prev⟩, settled.2)
  | .ok (.storedInert reason hash prev, log) =>
    .ok (.retained reason, some ⟨hash, prev⟩, { σ with log := log })
  | .ok (.alreadyPresent, log) => .ok (.alreadyPresent, none, { σ with log := log })
  | .ok (.gapRetained, log) => .ok (.awaitingPredecessor, none, { σ with log := log })
  | .ok (.gapChainFull, log) => .ok (.heldChainFull, none, { σ with log := log })
  | .ok (.alreadyGapped, log) => .ok (.alreadyAwaiting, none, { σ with log := log })
  | .ok (.fork, log) => .ok (.forked, none, { σ with log := log })
  | .ok (.unauthorized, log) => .ok (.unauthorized, none, { σ with log := log })

/-! ## 4. An arrival and what it unblocks -/

/-- The entry whose children are next, what was promoted, and the store. -/
structure Arrival where
  tail : Option AcceptedEntry
  promoted : List IngestOutcome
  store : Replica

/-- One held child, re-ingested under no advertised floor; behind one that does not store, its
    descendants go. -/
def drainTurn (ctx : SyncCtx) (device : DeviceFingerprint) (parent : EntryHash) (a : Arrival) :
    Arrival ⊕ Except String Arrival :=
  match takeGappedChild a.store.log device parent with
  | none => .inr (.ok a)
  | some (child, log) =>
    match ingestOne ctx { a.store with log := log } child none with
    | .error why => .inr (.error why)
    | .ok (outcome, some accepted, σ) => .inl ⟨some accepted, a.promoted ++ [outcome], σ⟩
    | .ok (outcome, none, σ) =>
      let abandoned := discardGappedDescendants σ.log child.entryHash
      .inl ⟨a.tail,
        a.promoted ++ outcome :: List.replicate abandoned.1 .abandonedBehindFork,
        { σ with log := abandoned.2 }⟩

section

variable (bound : Nat) (ctx : SyncCtx) (device : DeviceFingerprint)

/-- Re-ingest every held child of `parent`; the tail of the result is the one that took the slot. -/
def drainChildren (parent : EntryHash)
    (promoted : List IngestOutcome) (σ : Replica) : Option (Except String Arrival) :=
  loop (drainTurn ctx device parent) bound ⟨none, promoted, σ⟩

/-- The accepted entry settles the held children of its predecessor, and then its own. -/
def ingestTurn (a : Arrival) :
    Arrival ⊕ Option (Except String Arrival) :=
  match a.tail with
  | none => .inr (some (.ok a))
  | some accepted =>
    let siblings := match accepted.prevHash with
      | some prev => drainChildren bound ctx device prev a.promoted a.store
      | none => some (.ok ⟨none, a.promoted, a.store⟩)
    match siblings with
    | none => .inr none
    | some (.error why) => .inr (some (.error why))
    | some (.ok b) =>
      let foreign := discardForeignChainCitations b.store.log device accepted.entryHash
      match drainChildren bound ctx device accepted.entryHash
          (b.promoted ++ List.replicate foreign.1 .abandonedBehindFork)
          { b.store with log := foreign.2 } with
      | none => .inr none
      | some (.error why) => .inr (some (.error why))
      | some (.ok next) => .inl next

end

/-- An arrival, and what it let in. -/
structure IngestReport where
  outcome : IngestOutcome
  promoted : List IngestOutcome
  deriving DecidableEq

/-- Ingest a received entry and everything its acceptance unblocks. -/
def ingest (bound : Nat) (ctx : SyncCtx) (σ : Replica) (v : VerifiedEntry)
    (advertised : Option ChainCursor) : Option (Except String (IngestReport × Replica)) :=
  match ctx.gates with
  | .error why => some (.error why)
  | .ok _ =>
    match ingestOne ctx σ v advertised with
    | .error why => some (.error why)
    | .ok (outcome, tail, σ') =>
      match (loop (ingestTurn bound ctx v.device) bound ⟨tail, [], σ'⟩).join with
      | none => none
      | some (.error why) => some (.error why)
      | some (.ok a) => some (.ok (⟨outcome, a.promoted⟩, a.store))

/-! ## 5. Replaying a parked entry -/

/-- What the account log says of a parked entry's stream. -/
structure StreamStatus where
  contextKnown : Bool
  accountPinned : Bool
  incarnationCurrent : Bool
  deriving DecidableEq

/-- Re-attempt one retained entry. No producer is ordered before this pass, so it defers on any
    doubt. -/
def replayPendingEntry (sc : Scope) (status : StreamStatus) (everWriter : Bool) (σ : Replica)
    (p : StoredEntry) : Replica :=
  let repark (reason : PendingReason) : Replica :=
    { σ with log := σ.log.markEntryPending p.entryHash reason }
  if !status.contextKnown then repark .noStreamContext
  else if status.accountPinned then repark .unsupportedAccountControl
  else if !status.incarnationCurrent then repark .deferredIncarnationAuthority
  else
    match p.payload with
    | .unknown => repark .unknownOpKind
    | .undecodable => repark .undecodablePayload
    | .known op addressable =>
      match sc.table? op.table with
      | none => repark .tableNotInScope
      | some t =>
        let e : RowEntry := ⟨op, ⟨⟨p.lamport, p.device⟩, p.lamport_lt⟩, addressable⟩
        match settleGuarded sc t σ (.forLocalDevice everWriter .deferOnAnyDoubt) e with
        | (.inl reason, tables) => ⟨σ.log.markEntryPending p.entryHash reason, tables⟩
        | (.inr .applied, tables) | (.inr .superseded, tables) | (.inr (.quarantined ..), tables) =>
          ⟨σ.log.clearEntryPending p.entryHash, tables⟩
        | (.inr (.unprojectable reason), tables) =>
          ⟨σ.log.markEntryPending p.entryHash reason, tables⟩

/-! ## 6. Authoring -/

/-- Why a local op is not authored. -/
inductive AuthorError where
  | refused (why : String)
  /-- a locally-produced op lost its own self-apply -/
  | selfApplyConflict (table rowPk : String)
  | notSelfApplied (table : String) (outcome : ApplyOutcome)
  deriving DecidableEq

/-- Mint a local op and apply it at home; anything but a clean apply fails, and the entry with it.
    -/
def authorAndApply (sc : Scope) (σ : Replica) (device : DeviceFingerprint) (hash : EntryHash)
    (op : RowOp) (addressable : ∀ pk ∈ op.pks, PkAddressable pk) :
    Except AuthorError (RowEntry × Replica) :=
  match authorRowEntry sc.streamId σ.log device hash op addressable with
  | .error why => .error (.refused why)
  | .ok (e, log) =>
    match sc.applyEntry σ.tables e with
    | (.applied, tables) => .ok (e, ⟨log, tables⟩)
    | (.superseded, _) =>
      .error (.selfApplyConflict op.table ((op.pks.head?.map rowPkString).getD ""))
    | (outcome, _) => .error (.notSelfApplied op.table outcome)

/-! ## 7. What an arrival can do -/

section

variable {device : DeviceFingerprint} {bound : Nat}

/-- The log but for held entries that went. -/
def Thinned (log log' : ChainLog) : Prop :=
  ∃ held, log' = { log with gapped := held } ∧ held.Sublist log.gapped

theorem Thinned.refl (log : ChainLog) : Thinned log log := ⟨log.gapped, rfl, .refl _⟩

theorem Thinned.trans {log₁ log₂ log₃ : ChainLog} (h : Thinned log₁ log₂) (h' : Thinned log₂ log₃) :
    Thinned log₁ log₃ := by
  obtain ⟨held, rfl, hsub⟩ := h
  obtain ⟨held', rfl, hsub'⟩ := h'
  exact ⟨held', rfl, hsub'.trans hsub⟩

theorem thinned_dropGapped (log : ChainLog) (hash : EntryHash) : Thinned log (log.dropGapped hash) :=
  ⟨_, rfl, filter_sublist⟩

theorem sweepTurn_thinned {log : ChainLog} (h : Thinned log w.log) (ht : sweepTurn w = .inl w') :
    Thinned log w'.log := by
  unfold sweepTurn at ht
  split at ht
  · cases ht
  · cases ht
    exact h.trans ⟨_, rfl, filter_sublist⟩

theorem sweepTurn_decreases (ht : sweepTurn w = .inl w') :
    w'.worklist.length + w'.log.gapped.length < w.worklist.length + w.log.gapped.length := by
  unfold sweepTurn at ht
  split at ht
  · cases ht
  rename_i parent rest hw
  cases ht
  have hparts := length_eq_length_filter_add (l := w.log.gapped)
    fun e => decide (e.prevHash = some parent)
  have hkept : (w.log.gapped.filter fun e => e.entryHash ∉
        (w.log.gapped.filter fun e => e.prevHash = some parent).map (·.entryHash)).length ≤
      (w.log.gapped.filter fun e => !decide (e.prevHash = some parent)).length := by
    rw [← countP_eq_length_filter, ← countP_eq_length_filter]
    refine countP_mono_left fun e he hkeep => ?_
    simp only [Bool.not_eq_true', decide_eq_false_iff_not]
    intro hprev
    refine absurd hkeep ?_
    simp only [decide_eq_true_eq, not_not]
    exact mem_map_of_mem (mem_filter.mpr ⟨he, decide_eq_true hprev⟩)
  simp only [hw, length_append, length_reverse, length_map, length_cons]
  omega

section

variable (log : ChainLog)

theorem sweep_isSome (root : EntryHash) :
    (loop sweepTurn (log.gapped.length + 2) ⟨[root], 0, log⟩).isSome :=
  loop_isSome (fun _ => True) (fun w => w.worklist.length + w.log.gapped.length)
    (fun _ _ _ ht => ⟨trivial, sweepTurn_decreases ht⟩) trivial (by simp; omega)

theorem discardGappedDescendants_thinned (root : EntryHash) :
    Thinned log (discardGappedDescendants log root).2 := by
  obtain ⟨r, hr⟩ := Option.isSome_iff_exists.mp (sweep_isSome log root)
  unfold discardGappedDescendants
  rw [hr]
  obtain ⟨w, hw, hout⟩ := loop_rule (fun w => Thinned log w.log)
    (fun _ _ h ht => sweepTurn_thinned h ht) (.refl log) hr
  unfold sweepTurn at hout
  split at hout
  · cases hout
    exact hw
  · cases hout

theorem discardForeignChainCitations_thinned (ownDevice : DeviceFingerprint)
    (hash : EntryHash) : Thinned log (discardForeignChainCitations log ownDevice hash).2 := by
  unfold discardForeignChainCitations
  refine List.foldlRecOn (motive := fun acc : Nat × ChainLog => Thinned log acc.2) _ _ (.refl log) ?_
  intro acc h citation _
  exact (h.trans (thinned_dropGapped _ _)).trans (discardGappedDescendants_thinned _ _)

/-- A held child of `parent` on the chain of the device. -/
def HeldChild (device : DeviceFingerprint) (parent : EntryHash)
    (child : VerifiedEntry) : Prop :=
  child ∈ log.gapped ∧ child.device = device ∧ child.prevHash = some parent

theorem nearestChild_found (device : DeviceFingerprint) (parent : EntryHash) :
    (nearestChild log device parent = none ∧ ∀ e, ¬ HeldChild log device parent e) ∨
      ∃ child, nearestChild log device parent = some child ∧ HeldChild log device parent child := by
  have hbest : (_ = [] ∧ nearestChild log device parent = none) ∨
      ∃ f ∈ _, nearestChild log device parent = some f ∧ ∀ e ∈ _, gapRank f ≤ gapRank e :=
    Lib.Ascending.foldl_best (fun e => OrderDual.toDual (gapRank e)) (fun _ => rfl) (fun _ _ => rfl) _
  rcases hbest with ⟨hnil, hnone⟩ | ⟨f, hf, hfound, -⟩
  · refine .inl ⟨hnone, fun e he => ?_⟩
    exact not_mem_nil (hnil ▸ mem_filter.mpr ⟨he.1, decide_eq_true he.2⟩)
  · obtain ⟨hmem, hboth⟩ := mem_filter.mp hf
    exact .inr ⟨f, hfound, hmem, of_decide_eq_true hboth⟩

end

/-- **What a turn of a drain can do**: find no child, or take one out and ingest it. -/
inductive DrainTurn (ctx : SyncCtx) (device : DeviceFingerprint) (parent : EntryHash) (a : Arrival) :
    Arrival ⊕ Except String Arrival → Prop where
  | empty (hnone : ∀ e, ¬ HeldChild a.store.log device parent e) :
      DrainTurn ctx device parent a (.inr (.ok a))
  | fails {child : VerifiedEntry} {why : String} (hc : HeldChild a.store.log device parent child)
      (hone : ingestOne ctx { a.store with log := a.store.log.dropGapped child.entryHash } child none =
        .error why) : DrainTurn ctx device parent a (.inr (.error why))
  | accepts {child : VerifiedEntry} {outcome : IngestOutcome} {x : AcceptedEntry} {σ : Replica}
      (hc : HeldChild a.store.log device parent child)
      (hone : ingestOne ctx { a.store with log := a.store.log.dropGapped child.entryHash } child none =
        .ok (outcome, some x, σ)) :
      DrainTurn ctx device parent a (.inl ⟨some x, a.promoted ++ [outcome], σ⟩)
  | refuses {child : VerifiedEntry} {outcome : IngestOutcome} {σ : Replica}
      (hc : HeldChild a.store.log device parent child)
      (hone : ingestOne ctx { a.store with log := a.store.log.dropGapped child.entryHash } child none =
        .ok (outcome, none, σ)) :
      DrainTurn ctx device parent a (.inl ⟨a.tail, a.promoted ++ outcome ::
        List.replicate (discardGappedDescendants σ.log child.entryHash).1 .abandonedBehindFork,
        { σ with log := (discardGappedDescendants σ.log child.entryHash).2 }⟩)

theorem drainTurn_turns (ctx : SyncCtx) (device : DeviceFingerprint) (parent : EntryHash)
    (a : Arrival) : DrainTurn ctx device parent a (drainTurn ctx device parent a) := by
  unfold drainTurn takeGappedChild
  rcases nearestChild_found a.store.log device parent with ⟨hnone, hall⟩ | ⟨child, hchild, hc⟩
  · rw [hnone]
    exact .empty hall
  rw [hchild]
  simp only [Option.map_some]
  split
  · exact .fails hc ‹_›
  · exact .accepts hc ‹_›
  · exact .refuses hc ‹_›

/-- **What follows an acceptance**: held entries go, and held ones of the same chain are ingested
    one by one, under no advertised floor. -/
inductive Promotes (ctx : SyncCtx) (device : DeviceFingerprint) (σ : Replica) : Replica → Prop where
  | refl : Promotes ctx device σ σ
  | thin {σ₁ : Replica} {log : ChainLog} (h : Promotes ctx device σ σ₁)
      (hthin : Thinned σ₁.log log) : Promotes ctx device σ { σ₁ with log := log }
  | child {σ₁ σ₂ : Replica} {child : VerifiedEntry} {outcome : IngestOutcome}
      {accepted : Option AcceptedEntry} (h : Promotes ctx device σ σ₁)
      (hmem : child ∈ σ₁.log.gapped) (hdev : child.device = device)
      (hone : ingestOne ctx { σ₁ with log := σ₁.log.dropGapped child.entryHash } child none =
        .ok (outcome, accepted, σ₂)) : Promotes ctx device σ σ₂

theorem drainTurn_promotes (h : Promotes ctx device σ a.store)
    (ht : drainTurn ctx device parent a = .inl a') : Promotes ctx device σ a'.store := by
  have hturn := drainTurn_turns ctx device parent a
  rw [ht] at hturn
  cases hturn with
  | accepts hc hone => exact h.child hc.1 hc.2.1 hone
  | refuses hc hone =>
    exact (h.child hc.1 hc.2.1 hone).thin (discardGappedDescendants_thinned _ _)

theorem drainChildren_rule (p : Arrival → Prop)
    (hturn : ∀ b b', p b → drainTurn ctx device parent b = .inl b' → p b')
    (h : p ⟨none, promoted, σ₁⟩)
    (hd : drainChildren bound ctx device parent promoted σ₁ = some (.ok a)) :
    p a ∧ ∀ e, ¬ HeldChild a.store.log device parent e := by
  obtain ⟨b, hb, hout⟩ := loop_rule p hturn h hd
  have hlast := drainTurn_turns ctx device parent b
  rw [hout] at hlast
  cases hlast with
  | empty hnone => exact ⟨hb, hnone⟩

theorem drainChildren_promotes (h : Promotes ctx device σ σ₁)
    (hd : drainChildren bound ctx device parent promoted σ₁ = some (.ok a)) :
    Promotes ctx device σ a.store :=
  (drainChildren_rule (fun b => Promotes ctx device σ b.store) (fun _ _ h ht =>
    drainTurn_promotes h ht) h hd).1

theorem ingestTurn_promotes (h : Promotes ctx device σ a.store)
    (ht : ingestTurn bound ctx device a = .inl a') : Promotes ctx device σ a'.store := by
  unfold ingestTurn at ht
  split at ht
  · cases ht
  rename_i accepted hacc
  simp only at ht
  split at ht
  · cases ht
  · cases ht
  rename_i b hb
  have hsib : Promotes ctx device σ b.store := by
    split at hb
    · exact drainChildren_promotes h hb
    · cases hb
      exact h
  split at ht
  · cases ht
  · cases ht
  · rename_i next hnext
    cases ht
    exact drainChildren_promotes (hsib.thin (discardForeignChainCitations_thinned _ _ _)) hnext

theorem ingestTurn_out (h : ingestTurn bound ctx device a = .inr (some (.ok b))) :
    b = a ∧ a.tail = none := by
  unfold ingestTurn at h
  split at h
  · rename_i htail
    cases h
    exact ⟨rfl, htail⟩
  simp only at h
  split at h
  · cases h
  · cases h
  · split at h <;> cases h

theorem ingest_promotes {report : IngestReport}
    (h : ingest bound ctx σ v advertised = some (.ok (report, σ'))) :
    ∃ outcome accepted σ₁, ingestOne ctx σ v advertised = .ok (outcome, accepted, σ₁) ∧
      Promotes ctx v.device σ₁ σ' ∧ (accepted = none → σ' = σ₁) := by
  unfold ingest at h
  split at h
  · cases h
  split at h
  · cases h
  rename_i outcome tail σ₁ hone
  refine ⟨outcome, tail, σ₁, hone, ?_⟩
  split at h
  · cases h
  · cases h
  rename_i a ha
  cases h
  -- an entry that was not accepted unblocks nothing: its first turn is the last
  obtain ⟨b, ⟨hb, hnone⟩, hout⟩ := loop_rule
    (fun b => Promotes ctx v.device σ₁ b.store ∧ (tail = none → b = ⟨none, [], σ₁⟩))
    (fun b b' h ht => ⟨ingestTurn_promotes h.1 ht, fun htail => by
      rw [h.2 htail] at ht
      cases ht⟩)
    ⟨.refl, fun htail => by rw [htail]⟩ (Option.join_eq_some_iff.mp ha)
  rw [(ingestTurn_out hout).1]
  exact ⟨hb, fun htail => by rw [hnone htail]⟩

end

/-! ## 8. Unsent local work is left alone -/

section Unsent

variable {sc : Scope} {name : String} {pk : List TypedValue}

theorem settleGuarded_stands (ht : sc.table? name = some t) (hname : RowName t.spec pk)
    (hun : Unsent sc.sha256 t.spec (σ.tables name) pk) {e : RowEntry}
    (ht' : sc.table? e.op.table = some t') {doubt : RowDoubt} (hdoubt : doubt ≠ .nothingUnsent) :
    Stands pk (σ.tables name) ((settleGuarded sc t' σ doubt e).2 name) := by
  by_cases hne : name = e.op.table
  · subst hne
    obtain rfl : t = t' := Option.some.inj (ht.symm.trans ht')
    unfold settleGuarded
    simp only
    split
    · split
      · rename_i now hnow
        obtain ⟨-, hpks, -⟩ := settleable_part hnow
        simp only [update_self]
        -- the part that settles now, as an entry of its own under the same identity
        exact applyEntry_spares (e := ⟨now, e.opMeta, fun p hp => e.addressable p (hpks p hp)⟩) hname
          hun.row_isSome (settleable_spares hname hun hnow)
      · exact .refl pk _
    · rename_i hpre
      simp only [update_self]
      exact applyEntry_of_preApply hname hun hdoubt hpre
  · unfold settleGuarded
    simp only
    split
    · split
      · simp only [update_of_ne hne]
        exact .refl pk _
      · exact .refl pk _
    · simp only [update_of_ne hne]
      exact .refl pk _

@[simp] theorem recordSettled_tables (log : ChainLog) (hash : EntryHash)
    (r : (PendingReason ⊕ ApplyOutcome) × (String → Store)) :
    (recordSettled log hash r).2.tables = r.2 := by
  obtain ⟨r, tables⟩ := r
  rcases r with reason | outcome
  · rfl
  · cases outcome <;> rfl

theorem ingestOne_stands (hever : ctx.everWriter = true) (ht : ctx.scope.table? name = some t)
    (hname : RowName t.spec pk) (hun : Unsent ctx.scope.sha256 t.spec (σ.tables name) pk)
    {outcome : IngestOutcome} {accepted : Option AcceptedEntry}
    (h : ingestOne ctx σ v advertised = .ok (outcome, accepted, σ')) :
    Stands pk (σ.tables name) (σ'.tables name) := by
  unfold ingestOne at h
  split at h
  · cases h
  · rename_i e hash prev log hacc
    split at h
    · cases h
      exact .refl pk _
    rename_i t' ht'
    simp only [Except.ok.injEq, Prod.mk.injEq] at h
    obtain ⟨-, -, rfl⟩ := h
    rw [recordSettled_tables]
    refine settleGuarded_stands (σ := { σ with log := log }) ht hname hun ht' ?_
    simp [RowDoubt.forLocalDevice, hever]
  all_goals
    cases h
    exact .refl pk _

theorem replayPendingEntry_cases (sc : Scope) (status : StreamStatus) (everWriter : Bool) (σ : Replica)
    (p : StoredEntry) : ∃ pending tables,
      replayPendingEntry sc status everWriter σ p = ⟨σ.log.setPending p.entryHash pending, tables⟩ ∧
        (tables = σ.tables ∨ ∃ t, ∃ e : RowEntry, sc.table? e.op.table = some t ∧
          e.opMeta = ⟨⟨p.lamport, p.device⟩, p.lamport_lt⟩ ∧ tables =
            (settleGuarded sc t σ (.forLocalDevice everWriter .deferOnAnyDoubt) e).2) := by
  unfold replayPendingEntry
  simp only
  split
  · exact ⟨some _, _, rfl, .inl rfl⟩
  split
  · exact ⟨some _, _, rfl, .inl rfl⟩
  split
  · exact ⟨some _, _, rfl, .inl rfl⟩
  split
  · exact ⟨some _, _, rfl, .inl rfl⟩
  · exact ⟨some _, _, rfl, .inl rfl⟩
  rename_i op addressable _
  split
  · exact ⟨some _, _, rfl, .inl rfl⟩
  rename_i t ht
  generalize hr : settleGuarded sc t σ (.forLocalDevice everWriter .deferOnAnyDoubt)
    ⟨op, ⟨⟨p.lamport, p.device⟩, p.lamport_lt⟩, addressable⟩ = r
  obtain ⟨r, tables⟩ := r
  rcases r with reason | outcome
  · exact ⟨some reason, _, rfl, .inr ⟨t, _, ht, rfl, (congrArg Prod.snd hr).symm⟩⟩
  · cases outcome <;> exact ⟨_, _, rfl, .inr ⟨t, _, ht, rfl, (congrArg Prod.snd hr).symm⟩⟩

theorem replayPendingEntry_stands (ht : sc.table? name = some t) (hname : RowName t.spec pk)
    (hun : Unsent sc.sha256 t.spec (σ.tables name) pk) (status : StreamStatus) (p : StoredEntry) :
    Stands pk (σ.tables name) ((replayPendingEntry sc status true σ p).tables name) := by
  obtain ⟨pending, tables, hr, rfl | ⟨t', e, ht', -, rfl⟩⟩ :=
    replayPendingEntry_cases sc status true σ p
  · rw [hr]
    exact .refl pk _
  · rw [hr]
    exact settleGuarded_stands ht hname hun ht' (by decide)

theorem Promotes.stands (hever : ctx.everWriter = true) (ht : ctx.scope.table? name = some t)
    (hname : RowName t.spec pk) (hun : Unsent ctx.scope.sha256 t.spec (σ.tables name) pk)
    {device : DeviceFingerprint} (h : Promotes ctx device σ σ') :
    Stands pk (σ.tables name) (σ'.tables name) := by
  induction h with
  | refl => exact .refl pk _
  | thin _ _ ih => exact ih
  | @child σ₁ _ child _ _ _ _ _ hone ih =>
    exact ih.trans (ingestOne_stands
      (σ := { σ₁ with log := σ₁.log.dropGapped child.entryHash }) hever ht hname
      (hun.of_stands ih) hone)

end Unsent

/-- **Unsent local work is never overwritten.** On a device that was ever enrolled as a writer, a
    live and readable row that was never published, or that differs from what was published of it at
    the current column set, is the same physical row after one entry is ingested, after an arrival
    with everything it promotes, and after the replay of a parked entry. -/
theorem ingest_keeps_unsent_work (ctx : SyncCtx) (hever : ctx.everWriter = true) (σ : Replica)
    (name : String) (t : Table) (ht : ctx.scope.table? name = some t) (pk : List TypedValue)
    (hname : RowName t.spec pk) (hun : Unsent ctx.scope.sha256 t.spec (σ.tables name) pk) :
    (∀ v advertised outcome accepted σ',
      ingestOne ctx σ v advertised = .ok (outcome, accepted, σ') →
        (σ'.tables name).rows (pkParams pk) = (σ.tables name).rows (pkParams pk)) ∧
    (∀ bound v advertised report σ',
      ingest bound ctx σ v advertised = some (.ok (report, σ')) →
        (σ'.tables name).rows (pkParams pk) = (σ.tables name).rows (pkParams pk)) ∧
    ∀ status p,
      ((replayPendingEntry ctx.scope status ctx.everWriter σ p).tables name).rows (pkParams pk) =
        (σ.tables name).rows (pkParams pk) := by
  refine ⟨fun v advertised outcome accepted σ' h => ?_, fun bound v advertised report σ' h => ?_,
    fun status p => ?_⟩
  · exact (ingestOne_stands hever ht hname hun h).row
  · obtain ⟨outcome, accepted, σ₁, hone, hprom, -⟩ := ingest_promotes h
    have hfirst := ingestOne_stands hever ht hname hun hone
    exact (hfirst.trans (hprom.stands hever ht hname (hun.of_stands hfirst))).row
  · rw [hever]
    exact (replayPendingEntry_stands ht hname hun status p).row

/-- A store whose one row was written locally and never published. -/
def editedNote : Replica where
  log := ChainLog.empty
  tables := update (fun _ => Store.empty) "memory_note_summaries"
    { Store.empty with
      rows := update (fun _ => none) (pkParams summaryPk)
        (some (insertRow memoryNoteSummaries unconstrained summaryPk
          ((summaryCells "local").map fun c => (c.column, c.value)))) }

/-- The context of the examples. -/
def noteCtx : SyncCtx := ⟨noteScope, .ok (), fun _ => true, true⟩

theorem rowName_summaryPk : RowName memoryNoteSummaries summaryPk := by
  refine ⟨?_, summaryPk_addressable _ mem_cons_self⟩
  unfold WellTyped
  decide

theorem unsent_editedNote :
    Unsent noteScope.sha256 memoryNoteSummaries (editedNote.tables "memory_note_summaries")
      summaryPk :=
  ⟨summaryCells "local", by decide +kernel, .inl rfl⟩

/-- A received write of the row is stored and parked, and the local row is still there. -/
theorem ingest_keeps_unsent_work_note :
    ∃ accepted σ', ingestOne noteCtx editedNote (noteUpsert 1 0 none "remote") none =
        .ok (.retained .deferredUnsentEdit, accepted, σ') ∧
      (σ'.tables "memory_note_summaries").rows (pkParams summaryPk) =
        (editedNote.tables "memory_note_summaries").rows (pkParams summaryPk) := by
  have hrun : ((ingestOne noteCtx editedNote (noteUpsert 1 0 none "remote") none).toOption.map
      (·.1)) = some (.retained .deferredUnsentEdit) := by decide +kernel
  cases h : ingestOne noteCtx editedNote (noteUpsert 1 0 none "remote") none with
  | error why =>
    rw [h] at hrun
    cases hrun
  | ok r =>
    obtain ⟨outcome, accepted, σ'⟩ := r
    rw [h] at hrun
    cases hrun
    refine ⟨accepted, σ', rfl, ?_⟩
    exact (ingest_keeps_unsent_work noteCtx rfl editedNote "memory_note_summaries" _ rfl summaryPk
      rowName_summaryPk unsent_editedNote).1 _ _ _ _ _ h

end RagRat.TableSync
