/-
  File:      RagRat/TableSync/Stream.lean
  Subject:   A STREAM'S STORE AND ITS RUNS: the replica, the suffix-coverage obligations
             (`coverage.rs`), the received entry (`transport.rs`), and every operation that moves them.

  * `ingestReceived` -- a received entry with the floor and the tip its sender advertised;
  * `StreamOp`, `streamStep`, `StreamReached` -- authoring, ingesting, replaying, compacting, purging,
    local writes, and what the store's other streams do;
  * `Touches` -- what an operation can do, step by step;
  * `chain_integrity` -- every chain keeps its shape, and no device equivocates.

  A received entry that does not decode, verify, or belong to a stream of the registry is dropped
  before this. The floor a compaction settles on (its budget, the clamp at pending entries and at
  pins) is left open: everything here holds for every floor.
-/
import RagRat.TableSync.Continuity

namespace RagRat.TableSync

open List

variable {device d : DeviceFingerprint} {op : StreamOp} {new authored : List VerifiedEntry}
  {sc : Scope} {brings : VerifiedEntry → Prop} {ctx : SyncCtx} {v : VerifiedEntry}
  {advertised : Option ChainCursor} {bound : Nat} {lamportOf : EntryHash → Nat}

/-! ## 1. Suffix coverage -/

/-- The suffix an adopted floor still owes: through the tip advertised with it. -/
structure Obligation where
  floor : Nat
  tip : ChainCursor
  deriving DecidableEq

/-- A replica, and what its chains still owe. -/
structure StreamStore extends Replica where
  coverage : List (DeviceFingerprint × Obligation)

namespace StreamStore

/-- A new one. -/
def empty : StreamStore := ⟨Replica.empty, []⟩

/-- What a chain owes. -/
def obligation (σ : StreamStore) (device : DeviceFingerprint) : Option Obligation :=
  σ.coverage.lookup device

/-- Some chain owes something. -/
def streamPending (σ : StreamStore) : Bool := !σ.coverage.isEmpty

/-- Record the obligation of the current root, in place of any earlier one of the chain. -/
def recordCoverage (σ : StreamStore) (device : DeviceFingerprint) (floor : Nat) (tip : ChainCursor) :
    StreamStore :=
  { σ with coverage := σ.coverage.filter (fun c => c.1 ≠ device) ++ [(device, ⟨floor, tip⟩)] }

/-- The entry with exactly the tip's lamport and hash is accepted on the chain. -/
def delivered (log : ChainLog) (device : DeviceFingerprint) (tip : ChainCursor) : Bool :=
  log.entries.any fun e =>
    e.device = device ∧ e.lamport = tip.lamport ∧ e.entryHash = tip.entryHash

/-- A chain that has its tip owes nothing. -/
def clearDelivered (σ : StreamStore) (device : DeviceFingerprint) : StreamStore :=
  { σ with coverage := σ.coverage.filter fun c =>
      ¬ (c.1 = device ∧ delivered σ.log device c.2.tip) }

end StreamStore

/-! ## 2. A received entry -/

/-- What a session is told of an arrival. -/
inductive TableSyncIngestOutcome where
  | stored
  | noChange
  deriving DecidableEq

/-- What it is told. -/
def IngestOutcome.received : IngestOutcome → TableSyncIngestOutcome
  | .applied | .retained _ | .awaitingPredecessor | .quarantined _ => .stored
  | .alreadyPresent | .alreadyAwaiting | .heldChainFull | .forked | .abandonedBehindFork
  | .unauthorized => .noChange

/-- What is wrong with an advertised floor and tip, if anything is. -/
def suffixRefusal (floor tip : Option ChainCursor) : Option String :=
  match floor, tip with
  | some floor, some tip =>
    if ¬ (floor.lamport ≤ tip.lamport ∧ tip.lamport < maxEntryLamport) then
      some "invalid advertised table suffix tip"
    else if tip.lamport = floor.lamport ∧ tip.entryHash ≠ floor.entryHash then
      some "advertised floor and tip conflict at the same lamport"
    else none
  | _, _ => none

/-- An entry as it arrives, with the device it was announced for and what its sender advertised. -/
structure Received where
  expectedDevice : DeviceFingerprint
  entry : VerifiedEntry
  advertisedFloor : Option ChainCursor
  advertisedTip : Option ChainCursor

/-- A floor is usable only with the tip of the suffix it stands for. -/
def Received.usableFloor (r : Received) : Option ChainCursor :=
  if r.advertisedTip.isSome then r.advertisedFloor else none

/-- A floor the ingest moved owes its suffix; what was owed may now be delivered. -/
def StreamStore.settleCoverage (σ : StreamStore) (device : DeviceFingerprint)
    (floorBefore : Option Nat) (tip : Option ChainCursor) : StreamStore :=
  let floorAfter := σ.log.retainedFloor device
  let recorded :=
    match floorAfter, tip with
    | some floor, some tip =>
      if floorAfter ≠ floorBefore then σ.recordCoverage device floor tip else σ
    | _, _ => σ
  recorded.clearDelivered device

/-- Ingest a received entry. -/
def ingestReceived (bound : Nat) (ctx : SyncCtx) (σ : StreamStore) (r : Received) :
    Option (Except String (TableSyncIngestOutcome × StreamStore)) :=
  if r.entry.streamId ≠ ctx.scope.streamId then some (.ok (.noChange, σ))
  else if r.entry.device ≠ r.expectedDevice then some (.ok (.noChange, σ))
  else
    match suffixRefusal r.usableFloor r.advertisedTip with
    | some why => some (.error why)
    | none =>
      match ingest bound ctx σ.toReplica r.entry r.usableFloor with
      | none => none
      | some (.error why) => some (.error why)
      | some (.ok (report, ρ)) =>
        some (.ok (report.outcome.received, { σ with toReplica := ρ }.settleCoverage r.entry.device
          (σ.log.retainedFloor r.entry.device) r.advertisedTip))

/-! ## 3. Operations and runs -/

/-- What can happen to a stream's store. -/
inductive StreamOp where
  /-- an arrival, under what the account log says when it arrives -/
  | ingest (bound : Nat) (ctx : SyncCtx) (r : Received)
  /-- a local op minted and applied at home -/
  | author (device : DeviceFingerprint) (hash : EntryHash) (op : RowOp)
      (addressable : ∀ pk ∈ op.pks, PkAddressable pk)
  /-- a parked entry looked at again -/
  | replay (status : StreamStatus) (everWriter : Bool) (p : StoredEntry)
  /-- the compaction pass reaches this chain and settles on this floor -/
  | compact (device : DeviceFingerprint) (floor : Nat)
  /-- the repository is purged: the tips and the coverage survive -/
  | purge
  /-- raw local writes, and the producer's own bookkeeping of what is published -/
  | localWork (table : String) (rows : List SqlValue → Option PhysicalRow)
      (published : String → Option (String × Nat))
  /-- held entries too old are given up -/
  | expire (keep : VerifiedEntry → Bool)
  /-- the store's other streams move -/
  | otherStreams (elsewhere : EntryHash → Bool)

section

variable (sc : Scope) (σ : StreamStore)

/-- Authoring waits while any suffix of the stream is owed. -/
def authorOnStream (device : DeviceFingerprint) (hash : EntryHash)
    (op : RowOp) (addressable : ∀ pk ∈ op.pks, PkAddressable pk) :
    Except AuthorError (RowEntry × StreamStore) :=
  if σ.streamPending then
    .error (.refused "table-sync suffix delivery is incomplete; authoring waits for recovery")
  else
    match authorAndApply sc σ.toReplica device hash op addressable with
    | .error why => .error why
    | .ok (e, ρ) => .ok (e, { σ with toReplica := ρ })

/-- The compaction pass skips a stream that owes a suffix. -/
def compactOverdue (device : DeviceFingerprint) (floor : Nat) :
    Except String (Nat × StreamStore) :=
  if σ.streamPending then .ok (0, σ)
  else
    match compactChainPrefix sc σ.toReplica device floor with
    | .error why => .error why
    | .ok (report, ρ) => .ok (report.droppedEntries, { σ with toReplica := ρ })

/-- One operation, with the entries it authored; `none` when it fails and rolls back. -/
def streamStep : StreamOp → Option (StreamStore × List VerifiedEntry)
  | .ingest bound ctx r =>
    match ingestReceived bound { ctx with scope := sc } σ r with
    | some (.ok (_, σ')) => some (σ', [])
    | _ => none
  | .author device hash op addressable =>
    match authorOnStream sc σ device hash op addressable with
    | .error _ => none
    | .ok (_, σ') => some (σ', σ'.log.accepted.drop σ.log.accepted.length)
  | .replay status everWriter p =>
    if p ∈ σ.log.entries ∧ p.pending.isSome then
      some ({ σ with toReplica := replayPendingEntry sc status everWriter σ.toReplica p }, [])
    else none
  | .compact device floor =>
    match compactOverdue sc σ device floor with
    | .error _ => none
    | .ok (_, σ') => some (σ', [])
  | .purge =>
    let log := { σ.log with entries := [], gapped := [], retainedFloors := fun _ => none }
    some ({ σ with log := log, tables := fun _ => Store.empty }, [])
  | .localWork table rows published =>
    let written := { σ.tables table with rows := rows, publishedRows := published }
    some ({ σ with tables := Function.update σ.tables table written }, [])
  | .expire keep => some ({ σ with log := { σ.log with gapped := σ.log.gapped.filter keep } }, [])
  | .otherStreams elsewhere => some ({ σ with log := { σ.log with elsewhere := elsewhere } }, [])

end

/-- What a store reaches by operations of which `ok` holds, with the entries authored on the way. -/
inductive StreamReached (sc : Scope) (ok : StreamStore → StreamOp → Prop) :
    StreamStore → List VerifiedEntry → Prop where
  | start : StreamReached sc ok .empty []
  | step {σ σ' : StreamStore} {authored new : List VerifiedEntry} (h : StreamReached sc ok σ authored)
      (op : StreamOp) (hok : ok σ op) (hs : streamStep sc σ op = some (σ', new)) :
      StreamReached sc ok σ' (authored ++ new)

/-! ## 4. What an operation touches -/

/-- What a step does to the tables: fold an accepted entry, leave the merge state alone, or clear. -/
inductive TablesTouch (sc : Scope) (log : ChainLog) (tables tables' : String → Store) : Prop where
  | folds (m : EntryMeta) (e : VerifiedEntry) (hmem : e ∈ log.accepted)
      (hm : m.clock = ⟨e.lamport, e.device⟩) (h : FoldsOne sc m tables tables')
  | apart (h : ∀ name, (tables' name).rowClocks = (tables name).rowClocks ∧
      (tables' name).rowTombstones = (tables name).rowTombstones ∧
      (tables' name).rowStatements = (tables name).rowStatements ∧
      (tables' name).tombstoneStatements = (tables name).tombstoneStatements)
  | cleared (h : tables' = fun _ => Store.empty)

/-- **One step of a replica**: a step of its chains; what it holds was there or is brought; and its
    tables move with an accepted entry only. -/
structure Touch (sc : Scope) (brings : VerifiedEntry → Prop) (σ σ' : Replica) : Prop where
  chain : ChainStep σ.log σ'.log
  accepted : ∀ e ∈ σ'.log.accepted, e ∈ σ.log.accepted ∨ e ∈ σ.log.gapped ∨ brings e
  gapped : ∀ e ∈ σ'.log.gapped, e ∈ σ.log.gapped ∨ brings e
  tables : TablesTouch sc σ'.log σ.tables σ'.tables

/-- An operation is a run of such steps. -/
abbrev Touches (sc : Scope) (brings : VerifiedEntry → Prop) : Replica → Replica → Prop :=
  Relation.ReflTransGen (Touch sc brings)

section Touch

variable {σ σ' : Replica}

theorem tablesTouch_refl (log : ChainLog) (tables : String → Store) :
    TablesTouch sc log tables tables :=
  .apart fun _ => ⟨rfl, rfl, rfl, rfl⟩

theorem touch_of_thinned {log : ChainLog} (h : Thinned σ.log log) :
    Touch sc brings σ { σ with log := log } := by
  obtain ⟨held, rfl, hsub⟩ := h
  exact ⟨.kept rfl rfl rfl, fun _ he => .inl he, fun _ he => .inl (hsub.subset he),
    tablesTouch_refl _ _⟩

theorem touch_of_ingestsOne {accepted : Option AcceptedEntry}
    (h : IngestsOne ctx σ v advertised accepted σ') (hv : v ∈ σ.log.gapped ∨ brings v) :
    Touch ctx.scope brings σ σ' := by
  obtain ⟨o, hstep, hacc⟩ := h.step
  refine ⟨hstep.chainStep, fun e he => ?_, fun e he => ?_, ?_⟩
  · rw [hstep.accepted] at he
    rcases mem_append.mp he with he | he
    · exact .inl he
    · split at he
      · exact .inr (mem_singleton.mp he ▸ hv)
      · cases he
  · cases hstep with
    | held _ _ _ _ hg =>
      rcases hg e he with hold | ⟨rfl, -⟩
      · exact .inl hold
      · exact hv
    | stored _ _ _ _ _ _ _ hg | adopted _ _ _ _ _ _ _ hg => exact .inl (hg e he).1
  · rcases h.tables with hkept | ⟨hsome, m, hm, hfold⟩
    · rw [hkept]
      exact tablesTouch_refl _ _
    · have ho : o.stores = true := by
        by_contra hno
        rw [hacc, if_neg hno] at hsome
        cases hsome
      refine .folds m v ?_ hm hfold
      rw [hstep.accepted, if_pos ho]
      exact mem_append_right _ mem_cons_self

theorem Promotes.touches (h : Promotes ctx device σ σ') : Touches ctx.scope brings σ σ' := by
  induction h with
  | refl => exact .refl
  | thin _ hthin ih => exact ih.tail (touch_of_thinned hthin)
  | child _ hmem _ hone ih =>
    exact ih.tail (touch_of_ingestsOne (ingestOne_ingestsOne hone).of_dropGapped (.inl hmem))

theorem ingest_touches {report : IngestReport} (hv : brings v)
    (h : ingest bound ctx σ v advertised = some (.ok (report, σ'))) :
    Touches ctx.scope brings σ σ' := by
  obtain ⟨outcome, accepted, σ₁, hone, hprom, -⟩ := ingest_promotes h
  exact Relation.ReflTransGen.head (touch_of_ingestsOne (ingestOne_ingestsOne hone) (.inr hv))
    hprom.touches

theorem touch_of_replay {status : StreamStatus} {everWriter : Bool} {p : StoredEntry}
    (hp : p ∈ σ.log.entries) : Touch sc brings σ (replayPendingEntry sc status everWriter σ p) := by
  obtain ⟨pending, tables, m, heq, hm, hfold⟩ := replayPendingEntry_folds sc status everWriter σ p
  have hsame := sameChains_setPending σ.log p.entryHash pending
  rw [heq]
  refine ⟨hsame.chainStep, fun e he => .inl (hsame.accepted ▸ he), fun e he => .inl (hsame.gapped ▸ he),
    .folds m p.toVerifiedEntry ?_ hm hfold⟩
  rw [hsame.accepted]
  exact mem_map_of_mem hp

end Touch

section

variable {σ σ' : StreamStore}

/-- **What authoring does**: one entry at the witness, above everything on the stream, folded at
    home. -/
structure Authors (sc : Scope) (σ σ' : StreamStore) (v : VerifiedEntry) : Prop where
  lamport : v.lamport = σ.log.nextStreamLamport
  lamport_lt : v.lamport < maxEntryLamport
  prev : v.prevHash = (σ.log.chainWitness v.device).map (·.entryHash)
  continues : Extends σ.log v
  accepted : σ'.log.accepted = σ.log.accepted ++ [v]
  tips : σ'.log.chainTips = (σ.log.raiseTip v).chainTips
  gapped : σ'.log.gapped = σ.log.gapped
  elsewhere : σ'.log.elsewhere = σ.log.elsewhere
  touch : ∀ brings : VerifiedEntry → Prop, brings v → Touch sc brings σ.toReplica σ'.toReplica
  settled : σ.streamPending = false
  coverage : σ'.coverage = σ.coverage

theorem authorOnStream_authors (hs : ∀ d, Sound σ.log d) {hash : EntryHash} {op : RowOp}
    {addressable : ∀ pk ∈ op.pks, PkAddressable pk} {e : RowEntry}
    (h : authorOnStream sc σ device hash op addressable = .ok (e, σ')) :
    ∃ v : VerifiedEntry, v.entryHash = hash ∧ v.device = device ∧ e.op = op ∧
      e.clock = ⟨v.lamport, v.device⟩ ∧ Authors sc σ σ' v := by
  unfold authorOnStream authorAndApply at h
  split at h
  · cases h
  rename_i hpend
  split at h
  · cases h
  rename_i e' ρ hauth
  cases h
  split at hauth
  · cases hauth
  rename_i e₁ log hrow
  obtain ⟨v, rfl, hop, hclock, hlt, hext, ha, hf, ht, hg, he⟩ := authorRowEntry_extends hs hrow
  split at hauth
  · rename_i tables hfold
    cases hauth
    refine ⟨_, rfl, rfl, hop, hclock, ⟨rfl, hlt, rfl, hext, ha, ht, hg, he, fun brings hv => ?_,
      by simpa using hpend, rfl⟩⟩
    refine ⟨.stored _ hext ha hf ht, fun d hd => ?_, fun d hd => .inl (hg ▸ hd), ?_⟩
    · simp only [ha] at hd
      rcases mem_append.mp hd with hd | hd
      · exact .inl hd
      · exact .inr (.inr (mem_singleton.mp hd ▸ hv))
    · refine .folds e.opMeta _ (by rw [ha]; exact mem_append_right _ mem_cons_self) hclock ?_
      unfold Scope.applyEntry at hfold
      split at hfold
      · rename_i t ht'
        obtain ⟨-, rfl⟩ := Prod.mk.inj hfold
        exact .entry e ht' rfl
      · cases hfold
  · cases hauth
  · cases hauth

/-- The entries an operation brings to the store: the one received, or those it authors. -/
def StreamOp.Brings (op : StreamOp) (new : List VerifiedEntry) (e : VerifiedEntry) : Prop :=
  (∃ bound ctx r, op = .ingest bound ctx r ∧ e = r.entry) ∨ e ∈ new

@[simp] theorem settleCoverage_toReplica (σ : StreamStore) (device : DeviceFingerprint)
    (floorBefore : Option Nat) (tip : Option ChainCursor) :
    (σ.settleCoverage device floorBefore tip).toReplica = σ.toReplica := by
  unfold StreamStore.settleCoverage
  simp only
  split
  · split <;> rfl
  · rfl

/-- **What a received entry does**: nothing at all, or an ingest of it under a floor that is usable,
    and then the coverage is settled. -/
theorem ingestReceived_cases {r : Received} {o : TableSyncIngestOutcome}
    (h : ingestReceived bound ctx σ r = some (.ok (o, σ'))) :
    σ' = σ ∨ ∃ report ρ, suffixRefusal r.usableFloor r.advertisedTip = none ∧
      ingest bound ctx σ.toReplica r.entry r.usableFloor = some (.ok (report, ρ)) ∧
      σ' = { σ with toReplica := ρ }.settleCoverage r.entry.device
        (σ.log.retainedFloor r.entry.device) r.advertisedTip := by
  unfold ingestReceived at h
  split at h
  · cases h
    exact .inl rfl
  split at h
  · cases h
    exact .inl rfl
  split at h
  · cases h
  rename_i hrefuse
  split at h
  · cases h
  · cases h
  · rename_i report ρ hing
    cases h
    exact .inr ⟨report, ρ, hrefuse, hing, rfl⟩

/-- **What one operation does.** -/
inductive Stepped (sc : Scope) (σ : StreamStore) :
    StreamOp → StreamStore → List VerifiedEntry → Prop where
  | dropped {bound : Nat} {ctx : SyncCtx} {r : Received} : Stepped sc σ (.ingest bound ctx r) σ []
  | ingested {bound : Nat} {ctx : SyncCtx} {r : Received} {report : IngestReport} {ρ : Replica}
      (hok : suffixRefusal r.usableFloor r.advertisedTip = none)
      (hing : ingest bound { ctx with scope := sc } σ.toReplica r.entry r.usableFloor =
        some (.ok (report, ρ))) :
      Stepped sc σ (.ingest bound ctx r) ({ σ with toReplica := ρ }.settleCoverage r.entry.device
        (σ.log.retainedFloor r.entry.device) r.advertisedTip) []
  | authored {σ' : StreamStore} {v : VerifiedEntry} {device : DeviceFingerprint} {rowOp : RowOp}
      {addressable : ∀ pk ∈ rowOp.pks, PkAddressable pk} (hv : Authors sc σ σ' v) :
      Stepped sc σ (.author device v.entryHash rowOp addressable) σ' [v]
  | replayed {status : StreamStatus} {everWriter : Bool} {p : StoredEntry} (hp : p ∈ σ.log.entries)
      (hsame : SameChains σ.log (replayPendingEntry sc status everWriter σ.toReplica p).log) :
      Stepped sc σ (.replay status everWriter p)
        { σ with toReplica := replayPendingEntry sc status everWriter σ.toReplica p } []
  /-- the stream owes a suffix -/
  | waits {device : DeviceFingerprint} {floor : Nat} : Stepped sc σ (.compact device floor) σ []
  | compacted {device : DeviceFingerprint} {floor : Nat} {report : CompactionReport} {ρ : Replica}
      (hidle : σ.coverage = []) (hcomp : compactChainPrefix sc σ.toReplica device floor = .ok (report, ρ)) :
      Stepped sc σ (.compact device floor) { σ with toReplica := ρ } []
  /-- an operation that cannot fail -/
  | plain {op : StreamOp} {σ' : StreamStore} (hop : streamStep sc σ op = some (σ', []))
      (hkind : op matches .purge | .localWork _ _ _ | .expire _ | .otherStreams _) : Stepped sc σ op σ' []

theorem streamStep_stepped (hs : ∀ d, Sound σ.log d) (h : streamStep sc σ op = some (σ', new)) :
    Stepped sc σ op σ' new := by
  cases op with
  | ingest bound ctx r =>
    simp only [streamStep] at h
    split at h
    · rename_i o σ₁ hrec
      cases h
      rcases ingestReceived_cases hrec with rfl | ⟨report, ρ, hok, hing, rfl⟩
      · exact .dropped
      · exact .ingested hok hing
    · cases h
  | author device hash op addressable =>
    simp only [streamStep] at h
    split at h
    · cases h
    rename_i e σ₁ hauth
    obtain ⟨v, rfl, -, -, -, hv⟩ := authorOnStream_authors hs hauth
    cases h
    rw [hv.accepted, drop_left]
    exact .authored hv
  | replay status everWriter p =>
    simp only [streamStep] at h
    split at h
    · rename_i hp
      cases h
      obtain ⟨pending, tables, -, heq, -⟩ := replayPendingEntry_folds sc status everWriter σ.toReplica p
      exact .replayed hp.1 (heq ▸ sameChains_setPending σ.log p.entryHash pending)
    · cases h
  | compact device floor =>
    simp only [streamStep, compactOverdue] at h
    split at h
    · cases h
    rename_i dropped σ₁ hcomp
    cases h
    split at hcomp
    · cases hcomp
      exact .waits
    rename_i hpend
    split at hcomp
    · cases hcomp
    · rename_i report ρ hinit
      cases hcomp
      exact .compacted (by simpa [StreamStore.streamPending] using hpend) hinit
  | purge | localWork | expire | otherStreams =>
    cases h
    exact .plain rfl rfl

theorem streamStep_touches (hs : ∀ d, Sound σ.log d) (h : streamStep sc σ op = some (σ', new)) :
    Touches sc (op.Brings new) σ.toReplica σ'.toReplica := by
  cases streamStep_stepped hs h with
  | dropped | waits => exact .refl
  | ingested _ hing =>
    rw [settleCoverage_toReplica]
    exact ingest_touches (.inl ⟨_, _, _, rfl, rfl⟩) hing
  | authored hv => exact .single (hv.touch _ (.inr mem_cons_self))
  | replayed hp => exact .single (touch_of_replay hp)
  | compacted _ hcomp =>
    obtain ⟨hstep, htables, hsub, hgapped, -⟩ := compactChainPrefix_chainStep hcomp
    refine .single ⟨hstep, fun e he => .inl (hsub.subset he), fun e he => .inl (hgapped he), ?_⟩
    rw [htables]
    exact tablesTouch_refl _ _
  | plain hop hkind =>
    cases op with
    | purge =>
      cases hop
      exact .single ⟨.purged rfl rfl rfl, nofun, nofun, .cleared rfl⟩
    | localWork table rows published =>
      cases hop
      refine .single ⟨.kept rfl rfl rfl, fun _ he => .inl he, fun _ he => .inl he, .apart fun name => ?_⟩
      by_cases hne : name = table
      · subst hne
        simp
      · simp [Function.update_of_ne hne]
    | expire keep =>
      cases hop
      exact .single (touch_of_thinned ⟨_, rfl, filter_sublist⟩)
    | otherStreams elsewhere =>
      cases hop
      exact .single ⟨.kept rfl rfl rfl, fun _ he => .inl he, fun _ he => .inl he, tablesTouch_refl _ _⟩
    | _ => cases hkind

end

/-! ## 5. Chain integrity -/

section Integrity

variable {σ σ' : Replica}

theorem Touches.sound (h : Touches sc brings σ σ') (hs : ∀ d, Sound σ.log d)
    (d : DeviceFingerprint) : Sound σ'.log d := by
  induction h generalizing d with
  | refl => exact hs d
  | tail _ ht ih => exact ht.chain.sound ih d

theorem Touches.witness_le (h : Touches sc brings σ σ') (hs : ∀ d, Sound σ.log d) {w : ChainCursor}
    (hw : σ.log.chainWitness d = some w) :
    ∃ w', σ'.log.chainWitness d = some w' ∧ w.lamport ≤ w'.lamport := by
  induction h with
  | refl => exact ⟨w, hw, le_rfl⟩
  | tail hpre ht ih =>
    obtain ⟨w₁, hw₁, hle⟩ := ih
    obtain ⟨w₂, hw₂, hor⟩ := ht.chain.witness_le (Touches.sound hpre hs) hw₁
    refine ⟨w₂, hw₂, ?_⟩
    rcases hor with rfl | hlt
    · exact hle
    · omega

/-- A hash names one lamport, in everything the store holds. -/
structure Genuine (lamportOf : EntryHash → Nat) (log : ChainLog) : Prop where
  accepted : ∀ e ∈ log.accepted, lamportOf e.entryHash = e.lamport
  gapped : ∀ e ∈ log.gapped, lamportOf e.entryHash = e.lamport
  tips : ∀ d w, log.chainWitness d = some w → lamportOf w.entryHash = w.lamport

theorem Touches.genuine (h : Touches sc brings σ σ') (hs : ∀ d, Sound σ.log d)
    (hb : ∀ e, brings e → lamportOf e.entryHash = e.lamport) (hg : Genuine lamportOf σ.log) :
    Genuine lamportOf σ'.log := by
  induction h with
  | refl => exact hg
  | @tail σ₁ σ₂ hpre ht ih =>
    have hacc : ∀ e ∈ σ₂.log.accepted, lamportOf e.entryHash = e.lamport := fun e he =>
      (ht.accepted e he).elim (ih.accepted e) fun h => h.elim (ih.gapped e) (hb e)
    refine ⟨hacc, fun e he => (ht.gapped e he).elim (ih.gapped e) (hb e), fun d w hw => ?_⟩
    rcases ht.chain.witness (Touches.sound hpre hs) d with hsame | ⟨v, hv, hwit, -⟩
    · exact ih.tips d w (hsame.symm.trans hw)
    · rw [hwit] at hw
      cases hw
      exact hacc v hv

end Integrity

section

variable {σ : StreamStore}

/-- Every entry brought carries the lamport its hash names: `sha256` has no collision among them. -/
def StreamOp.Genuine (lamportOf : EntryHash → Nat) (σ : StreamStore) : StreamOp → Prop
  | .ingest _ _ r => lamportOf r.entry.entryHash = r.entry.lamport
  | .author _ hash _ _ => lamportOf hash = σ.log.nextStreamLamport
  | _ => True

theorem authors_of_streamStep {σ' : StreamStore} (hs : ∀ d, Sound σ.log d)
    (h : streamStep sc σ op = some (σ', new)) :
    new = [] ∨ ∃ v device hash rowOp addressable, op = .author device hash rowOp addressable ∧
      v.entryHash = hash ∧ new = [v] ∧ Authors sc σ σ' v := by
  cases streamStep_stepped hs h with
  | authored hv => exact .inr ⟨_, _, _, _, _, rfl, rfl, rfl, hv⟩
  | _ => exact .inl rfl

/-- What a run keeps: the shape of every chain, and that what was authored never shares a lamport or
    a predecessor. -/
structure Integral (lamportOf : EntryHash → Nat) (σ : StreamStore) (authored : List VerifiedEntry) :
    Prop where
  sound : ∀ d, Sound σ.log d
  genuine : Genuine lamportOf σ.log
  below : ∀ a ∈ authored, ∃ w, σ.log.chainWitness a.device = some w ∧ a.lamport ≤ w.lamport
  prev : ∀ a ∈ authored, ∀ p, a.prevHash = some p → lamportOf p < a.lamport
  apart : authored.Pairwise fun a b =>
    a.device = b.device → a.lamport ≠ b.lamport ∧ a.prevHash ≠ b.prevHash

theorem Integral.step {σ' : StreamStore} (hi : Integral lamportOf σ authored)
    (hok : op.Genuine lamportOf σ) (h : streamStep sc σ op = some (σ', new)) :
    Integral lamportOf σ' (authored ++ new) := by
  have htouch := streamStep_touches hi.sound h
  have hauth := authors_of_streamStep hi.sound h
  have hbrings : ∀ e, op.Brings new e → lamportOf e.entryHash = e.lamport := by
    rintro e (⟨bound, ctx, r, rfl, rfl⟩ | he)
    · exact hok
    · rcases hauth with rfl | ⟨v, device, hash, rowOp, addressable, rfl, hhash, rfl, hv⟩
      · cases he
      · rw [mem_singleton.mp he, hhash, hv.lamport]
        exact hok
  have hbelow : ∀ a ∈ authored, ∃ w, σ'.log.chainWitness a.device = some w ∧
      a.lamport ≤ w.lamport := by
    intro a ha
    obtain ⟨w, hw, hle⟩ := hi.below a ha
    obtain ⟨w', hw', hle'⟩ := htouch.witness_le hi.sound hw
    exact ⟨w', hw', hle.trans hle'⟩
  have hsound := htouch.sound hi.sound
  have hgenuine := htouch.genuine hi.sound hbrings hi.genuine
  rcases hauth with rfl | ⟨v, device, hash, rowOp, addressable, rfl, hhash, rfl, hv⟩
  · rw [append_nil]
    exact ⟨hsound, hgenuine, hbelow, hi.prev, hi.apart⟩
  -- one new entry: above the witness, which stands above all that was authored before
  have hwitness : ∀ w, σ.log.chainWitness v.device = some w → w.lamport < v.lamport := by
    intro w hw
    rw [hv.lamport]
    exact witness_lt_nextStreamLamport hw
  have hprev : ∀ p, v.prevHash = some p → ∃ w, σ.log.chainWitness v.device = some w ∧
      lamportOf p = w.lamport := by
    intro p hp
    rw [hv.prev, Option.map_eq_some_iff] at hp
    obtain ⟨w, hw, rfl⟩ := hp
    exact ⟨w, hw, hi.genuine.tips _ w hw⟩
  refine ⟨hsound, hgenuine, fun a ha => ?_, fun a ha p hp => ?_, ?_⟩
  · rcases mem_append.mp ha with ha | ha
    · exact hbelow a ha
    · obtain rfl := mem_singleton.mp ha
      refine (hsound a.device).le_witness (mem_filter.mpr ⟨?_, decide_eq_true rfl⟩)
      rw [hv.accepted]
      exact mem_append_right _ mem_cons_self
  · rcases mem_append.mp ha with ha | ha
    · exact hi.prev a ha p hp
    · obtain rfl := mem_singleton.mp ha
      obtain ⟨w, hw, heq⟩ := hprev p hp
      rw [heq]
      exact hwitness w hw
  · refine pairwise_append.mpr ⟨hi.apart, pairwise_singleton _ _, ?_⟩
    intro a ha b hb hdev
    obtain rfl := mem_singleton.mp hb
    obtain ⟨w, hw, hle⟩ := hi.below a ha
    rw [hdev] at hw
    have hlt := hwitness w hw
    refine ⟨by omega, fun heq => ?_⟩
    have hsome : b.prevHash = some w.entryHash := by rw [hv.prev, hw]; rfl
    have hbelow' := hi.prev a ha w.entryHash (heq.trans hsome)
    rw [hi.genuine.tips _ w hw] at hbelow'
    omega

theorem integral_empty (lamportOf : EntryHash → Nat) : Integral lamportOf .empty [] where
  sound := sound_empty _
  genuine := ⟨nofun, nofun, nofun⟩
  below := nofun
  prev := nofun
  apart := .nil

theorem StreamReached.integral
    (h : StreamReached sc (fun σ op => op.Genuine lamportOf σ) σ authored) :
    Integral lamportOf σ authored := by
  induction h with
  | start => exact integral_empty lamportOf
  | step _ op hok hs ih => exact ih.step hok hs

/-- **Table chain integrity.** In every store reached from empty, on every chain: the stored entries
    have distinct lamports; those at or above the recorded floor form one path of predecessors in
    ascending lamport order; and a stored tail is the retained witness. Whatever is authored next
    extends the witness, and no two entries a device authored over the whole run, purges included,
    share a lamport or a predecessor. -/
theorem chain_integrity (sc : Scope) (lamportOf : EntryHash → Nat) (σ : StreamStore)
    (authored : List VerifiedEntry)
    (h : StreamReached sc (fun σ op => op.Genuine lamportOf σ) σ authored) :
    (∀ d, (σ.log.chainOf d).Pairwise (fun a b => a.lamport ≠ b.lamport) ∧
      (σ.log.pathOf d).IsChain (fun a b => a.lamport < b.lamport ∧ b.prevHash = some a.entryHash) ∧
      ∀ t, σ.log.chainTail d = some t → σ.log.chainWitness d = some t) ∧
    (∀ op σ' new, streamStep sc σ op = some (σ', new) → ∀ v ∈ new,
      v.prevHash = (σ.log.chainWitness v.device).map (·.entryHash) ∧
      ∀ w, σ.log.chainWitness v.device = some w → w.lamport < v.lamport) ∧
    authored.Pairwise fun a b =>
      a.device = b.device → a.lamport ≠ b.lamport ∧ a.prevHash ≠ b.prevHash := by
  have hi := h.integral
  refine ⟨fun d => ⟨?_, ?_, (hi.sound d).tail⟩, fun op σ' new hs v hv => ?_, hi.apart⟩
  · exact (hi.sound d).rises.imp fun hlt => Nat.ne_of_lt hlt
  · have hrises := (hi.sound d).rises.sublist (pathOf_suffix (hi.sound d).rises).sublist
    exact isChain_iff_getElem.mpr fun i hi' =>
      ⟨hrises.isChain.getElem i hi', (hi.sound d).linked.getElem i hi'⟩
  · rcases authors_of_streamStep hi.sound hs with rfl | ⟨v', _, _, _, _, rfl, -, rfl, hauth⟩
    · cases hv
    · obtain rfl := mem_singleton.mp hv
      refine ⟨hauth.prev, fun w hw => ?_⟩
      rw [hauth.lamport]
      exact witness_lt_nextStreamLamport hw

/-- Run the operations in order, each of which `check` must allow. -/
def runStream (sc : Scope) (check : StreamStore → StreamOp → Bool) (σ : StreamStore)
    (authored : List VerifiedEntry) : List StreamOp → Option (StreamStore × List VerifiedEntry)
  | [] => some (σ, authored)
  | op :: ops =>
    if check σ op then
      match streamStep sc σ op with
      | some (σ', new) => runStream sc check σ' (authored ++ new) ops
      | none => none
    else none

theorem StreamReached.run {ok : StreamStore → StreamOp → Prop}
    {check : StreamStore → StreamOp → Bool} (hcheck : ∀ σ op, check σ op = true → ok σ op)
    (h : StreamReached sc ok σ authored) {ops : List StreamOp}
    {r : StreamStore × List VerifiedEntry} (hr : runStream sc check σ authored ops = some r) :
    StreamReached sc ok r.1 r.2 := by
  induction ops generalizing σ authored with
  | nil =>
    cases hr
    exact h
  | cons op ops ih =>
    unfold runStream at hr
    split at hr
    · rename_i hc
      split at hr
      · rename_i σ' new hs
        exact ih (h.step op (hcheck σ op hc) hs) hr
      · cases hr
    · cases hr

/-- The device 7 authors a summary. -/
def authorNote (hash : EntryHash) (summary : String) : StreamOp :=
  .author 7 hash (.upsert "memory_note_summaries" 1 summaryPk (summaryCells summary))
    summaryPk_addressable

/-- An entry of device 7 arrives. -/
def receiveNote (v : VerifiedEntry) (floor tip : Option ChainCursor) : StreamOp :=
  .ingest 5 noteCtx ⟨7, v, floor, tip⟩

/-- A summary is authored, purged, given back by a peer, and the next one authored. -/
def purgedNoteRun : List StreamOp :=
  [authorNote 100 "a", .purge, receiveNote (noteUpsert 100 0 none "a") none none, authorNote 101 "b"]

def noteLamportOf (hash : EntryHash) : Nat := hash.val - 100

def genuineNote (σ : StreamStore) : StreamOp → Bool
  | .ingest _ _ r => noteLamportOf r.entry.entryHash = r.entry.lamport
  | .author _ hash _ _ => noteLamportOf hash = σ.log.nextStreamLamport
  | _ => true

theorem genuine_of_genuineNote (σ : StreamStore) (op : StreamOp) (h : genuineNote σ op = true) :
    op.Genuine noteLamportOf σ := by
  cases op with
  | ingest | author =>
    simp only [genuineNote, decide_eq_true_eq] at h
    exact h
  | _ => trivial

/-- The second entry is linked to the first, across the purge. -/
theorem chain_integrity_purged :
    ∃ σ a b, runStream noteScope genuineNote .empty [] purgedNoteRun = some (σ, [a, b]) ∧
      a.lamport ≠ b.lamport ∧ a.prevHash ≠ b.prevHash := by
  have hrun : ((runStream noteScope genuineNote .empty [] purgedNoteRun).map
      fun r => r.2.map (·.device)) = some [7, 7] := by decide +kernel
  obtain ⟨⟨σ, authored⟩, hr, hdev⟩ := Option.map_eq_some_iff.mp hrun
  have hreach : StreamReached noteScope (fun σ op => op.Genuine noteLamportOf σ) σ authored :=
    StreamReached.run genuine_of_genuineNote .start hr
  have happ := (chain_integrity noteScope noteLamportOf σ authored hreach).2.2
  match authored, hdev with
  | [a, b], hdev =>
    simp only [map_cons, map_nil, List.cons.injEq, and_true] at hdev
    obtain ⟨ha, hb⟩ := hdev
    have hab := (pairwise_cons.mp happ).1 b mem_cons_self (ha.trans hb.symm)
    exact ⟨σ, a, b, hr, hab⟩

end

end RagRat.TableSync
