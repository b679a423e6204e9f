/-
  File:      RagRat/TableSync/CatchUp.lean
  Subject:   WHAT ONE CHAIN'S TURN DELIVERS. A turn that ends with nothing pending and no chain skipped
             leaves the receiver's tail of an honest chain at or above the head the sender offered --
             unless the chain is unknown to the receiver and the sender restored it after a purge,
             without its first entry and without a floor (`Stranded`).

  * `sendChain_feeds` -- a turn feeds a prefix of what is served, all of it when nothing is pending;
  * `Sound.serves`, `feeds_reaches` -- what is served is linked, so it moves the tail to its last;
  * `serveChain_own` -- the chain's turn, from every frontier.
-/
import RagRat.TableSync.Session
import RagRat.TableSync.Upheld

namespace RagRat.TableSync

open List
open Lib.Ascending
open Lib.Fallible

variable {ρ ρ' ρ₁ ρ₂ : Streams} {d device : DeviceFingerprint} {s t item : StreamId}
  {later : List StreamId} {offered head : ChainHead} {chains : List ChainHead} {log : ChainLog}
  {start : ChainStart} {p : Receiver} {r r' : Receiving} {l l' es rest : List VerifiedEntry}
  {w : Window} {n m limit turns bound : Nat} {σ σ' : StreamStore} {c f : ChainCursor}
  {acc acc' acc₁ : Sending} {q : Sender} {e x y : VerifiedEntry} {floor : Option ChainCursor}

/-- The entries a session may stream. -/
abbrev Sender.cap (q : Sender) : Nat := q.limits.entriesPerSession

/-- The chains the next page may offer. -/
abbrev Sender.pageRoom (q : Sender) (acc : Sending) : Nat :=
  min q.limits.chainsPerPage (q.limits.chainsPerSession - acc.offeredChains)

/-! ## 1. The receiver, frame by frame -/

/-- Entries of one offered chain, ingested in order. -/
inductive Feeds (p : Receiver) (item : StreamId) (offered : ChainHead) :
    Streams → List VerifiedEntry → Streams → Prop where
  | nil {ρ : Streams} : Feeds p item offered ρ [] ρ
  | cons {ρ ρ' : Streams} {e : VerifiedEntry} {later : List VerifiedEntry} {σ : StreamStore}
      {o : TableSyncIngestOutcome}
      (he : ingestReceived p.bound (p.ctx item) (ρ item)
        ⟨offered.device, e, offered.floor, some offered.tip⟩ = some (.ok (o, σ)))
      (h : Feeds p item offered (ρ.put item σ) later ρ') : Feeds p item offered ρ (e :: later) ρ'

section Receiver

variable {answer : Option TableFrame}

theorem Feeds.append (h : Feeds p item offered ρ l ρ₁) (h' : Feeds p item offered ρ₁ l' ρ₂) :
    Feeds p item offered ρ (l ++ l') ρ₂ := by
  induction h with
  | nil => exact h'
  | cons he _ ih => exact .cons he (ih h')

theorem Feeds.split (h : Feeds p item offered ρ (l ++ l') ρ₂) :
    ∃ ρ₁, Feeds p item offered ρ l ρ₁ ∧ Feeds p item offered ρ₁ l' ρ₂ := by
  induction l generalizing ρ with
  | nil => exact ⟨ρ, .nil, h⟩
  | cons e l ih =>
    cases h with
    | cons he h =>
      obtain ⟨ρ₁, hl, hl'⟩ := ih h
      exact ⟨ρ₁, .cons he hl, hl'⟩

/-- The receiver has answered an inventory of the stream. -/
def Serving (item : StreamId) (later : List StreamId) (chains : List ChainHead) (r : Receiving) :
    Prop :=
  r.items = item :: later ∧ r.inventory = some chains

/-- The receiver waits for these streams, the first of them current, with no inventory open. -/
def Listening (items : List StreamId) (r : Receiving) : Prop := r.items = items ∧ r.inventory = none

theorem ingestEntries_feeds {u : Unit} (h : Returns (ingestEntries p item offered es) r u r') :
    Feeds p item offered r.streams es r'.streams ∧ r'.items = r.items ∧
      r'.inventory = r.inventory := by
  induction es generalizing r with
  | nil =>
    obtain ⟨-, rfl⟩ := returns_pure.mp h
    exact ⟨.nil, rfl, rfl⟩
  | cons e es ih =>
    obtain ⟨u₁, r₁, hone, hrest⟩ := returns_bind.mp h
    unfold Returns ingestEntry at hone
    split at hone
    · cases hone
    · cases hone
    · rename_i o σ hrec
      cases hone
      obtain ⟨hfeeds, hitems, hinv⟩ := ih hrest
      exact ⟨.cons hrec hfeeds, hitems, hinv⟩

theorem receiveFrame_entries (hs : Serving item later chains r)
    (h : Returns (receiveFrame p (.entries item device es)) r answer r') :
    ∃ offered, chains.find? (fun c => c.device = device) = some offered ∧
      Feeds p item offered r.streams es r'.streams ∧ Serving item later chains r' := by
  obtain ⟨hitems, hinv⟩ := hs
  obtain ⟨r₀, r₁, hget, hrest⟩ := returns_bind.mp h
  obtain ⟨rfl, rfl⟩ := returns_get.mp hget
  rw [hitems, hinv] at hrest
  simp only [receiveEntries] at hrest
  split at hrest
  · exact absurd hrest not_returns_throw
  rename_i offered hfind
  refine ⟨offered, hfind, ?_⟩
  rw [if_neg (by simp)] at hrest
  obtain ⟨-, hrest⟩ := returns_guard.mp hrest
  obtain ⟨u, r₁, hset, hrest⟩ := returns_bind.mp hrest
  obtain rfl := returns_set.mp hset
  obtain ⟨u', r₂, hing, hrest⟩ := returns_bind.mp hrest
  obtain ⟨-, rfl⟩ := returns_pure.mp hrest
  obtain ⟨hfeeds, hitems', hinv'⟩ := ingestEntries_feeds hing
  exact ⟨hfeeds, hitems'.trans hitems, hinv'.trans hinv⟩

theorem receiveFrame_inventory (hitems : r.items = item :: later) (hinv : r.inventory = none)
    (h : Returns (receiveFrame p (.chainInventory item chains)) r answer r') :
    answer = some (.chainFrontiers item
        (chains.map fun c => (c.device, chainFrontier (r.streams item) c.device))) ∧
      r'.streams = r.streams ∧ Serving item later chains r' := by
  obtain ⟨r₀, r₁, hget, hrest⟩ := returns_bind.mp h
  obtain ⟨rfl, rfl⟩ := returns_get.mp hget
  rw [hitems, hinv] at hrest
  simp only [receiveInventory] at hrest
  obtain ⟨-, hrest⟩ := returns_guard.mp hrest
  obtain ⟨-, hrest⟩ := returns_guard.mp hrest
  obtain ⟨u, r₁, hset, hrest⟩ := returns_bind.mp hrest
  obtain rfl := returns_set.mp hset
  obtain ⟨rfl, rfl⟩ := returns_pure.mp hrest
  exact ⟨rfl, rfl, hitems, rfl⟩

theorem receiveFrame_inventoryDone (hs : Serving item later chains r) :
    Returns (receiveFrame p (.inventoryDone item)) r none { r with inventory := none } := by
  obtain ⟨hitems, hinv⟩ := hs
  cases r
  cases hitems
  cases hinv
  refine returns_bind.mpr ⟨_, _, rfl, ?_⟩
  simp only [receiveEntries, if_true]
  exact returns_bind.mpr ⟨⟨⟩, _, rfl, rfl⟩

theorem receiveFrame_streamDone (hl : Listening (item :: later) r) (pending : Bool) :
    Returns (receiveFrame p (.streamDone item pending)) r none
      { r with
        continuationPending := r.continuationPending || pending
        items := later
        lastDevice := none } := by
  obtain ⟨hitems, hinv⟩ := hl
  cases r
  cases hitems
  cases hinv
  refine returns_bind.mpr ⟨_, _, rfl, ?_⟩
  simp only [receiveInventory, if_true]
  exact returns_bind.mpr ⟨⟨⟩, _, rfl, rfl⟩

theorem receiveFrame_done (hitems : r.items = []) : Returns (receiveFrame p .done) r none r := by
  refine returns_bind.mpr ⟨r, r, rfl, ?_⟩
  rw [hitems]
  exact rfl

end Receiver

/-! ## 2. What the sender serves of a chain -/

theorem chainByLamport_eq (h : Rises (·.lamport) (log.chainOf d)) :
    (chainByLamport log d).map (·.toVerifiedEntry) = log.chainOf d := by
  have hmap : (log.entries.filter fun e => e.device = d).map (·.toVerifiedEntry) = log.chainOf d := by
    unfold ChainLog.chainOf ChainLog.accepted
    rw [filter_map]
    rfl
  have hsorted : (log.entries.filter fun e => e.device = d).Pairwise
      fun a b => a.lamport ≤ b.lamport := by
    rw [← hmap] at h
    exact (pairwise_map.mp h).imp fun hlt => hlt.le
  unfold chainByLamport
  rw [List.Pairwise.insertionSort_eq hsorted, hmap]

theorem Window.admits_of_le (h : w.admits m = true) (hle : m ≤ n) : w.admits n = true := by
  cases w with
  | all => rfl
  | above k =>
    have hk : k < m := of_decide_eq_true h
    exact decide_eq_true (by omega)
  | upFrom k =>
    have hk : k ≤ m := of_decide_eq_true h
    exact decide_eq_true (by omega)

/-- The part of the chain a window shows. -/
def ChainLog.served (log : ChainLog) (d : DeviceFingerprint) (w : Window) : List VerifiedEntry :=
  (log.chainOf d).filter fun e => w.admits e.lamport

theorem served_page (hr : Rises (·.lamport) (log.chainOf d)) :
    (((chainByLamport log d).filter fun e => w.admits e.lamport).take n).map (·.toVerifiedEntry) =
      (log.served d w).take n := by
  rw [map_take, ChainLog.served, ← chainByLamport_eq hr, filter_map]
  rfl

theorem acceptedChainEntries_ok {es : List StoredEntry} (hr : Rises (·.lamport) (σ.log.chainOf d))
    (h : acceptedChainEntries σ d start limit = .ok es) :
    es = [] ∨ ∃ w, serveFrom σ.log d start = .ok (some w) ∧
      es.map (·.toVerifiedEntry) = (σ.log.served d w).take limit := by
  unfold acceptedChainEntries at h
  split at h
  · cases h
    exact .inl rfl
  split at h
  · cases h
  · cases h
    exact .inl rfl
  split at h
  · cases h
  · cases h
    exact .inl rfl
  rename_i w hw
  cases h
  exact .inr ⟨w, hw, served_page hr⟩

theorem serveFrom_after (h : serveFrom log d (.after c) = .ok (some w)) :
    cursorMatches log d c = .ok true ∧ w = .above c.lamport := by
  simp only [serveFrom] at h
  split at h
  · cases h
  · rename_i hmatch
    cases h
    exact ⟨hmatch, rfl⟩
  · split at h <;> cases h

theorem served_split {page : List StoredEntry} {last : StoredEntry}
    (hr : Rises (·.lamport) (log.chainOf d))
    (hpage : page.map (·.toVerifiedEntry) = (log.served d w).take n) (hlast : page.getLast? = some last) :
    page.map (·.toVerifiedEntry) ++ log.served d (.above last.lamport) = log.served d w := by
  have hlast' : ((log.served d w).take n).getLast? = some last.toVerifiedEntry := by
    rw [← hpage, getLast?_map, hlast]
    rfl
  have hadmits : w.admits last.lamport = true :=
    (mem_filter.mp (mem_of_mem_take (mem_of_getLast? hlast'))).2
  have hfilter : log.served d (.above last.lamport) =
      (log.served d w).filter fun e => last.lamport < e.lamport := by
    unfold ChainLog.served
    rw [filter_filter]
    refine filter_congr fun e _ => ?_
    by_cases hlt : last.lamport < e.lamport
    · rw [Window.admits_of_le hadmits hlt.le]
      simp [Window.admits, hlt]
    · simp [Window.admits, hlt]
  have hrises : Rises (·.lamport) (log.served d w) := hr.sublist filter_sublist
  rw [hpage, hfilter, hrises.filter_above_take hlast', take_append_drop]

/-! ## 3. One chain's turn -/

/-- Nothing of the stream is pending, and no chain was skipped. -/
def Sending.Clean (acc : Sending) : Prop := acc.streamPending = false ∧ acc.chainsSkipped = 0

/-- What the sender counts only grows: sent, pending, skipped. -/
structure Sending.Grows (acc acc' : Sending) : Prop where
  sent : acc.sent ≤ acc'.sent
  skipped : acc.chainsSkipped ≤ acc'.chainsSkipped
  pending : acc.streamPending = true → acc'.streamPending = true
  continuation : acc'.continuationPending = acc.continuationPending

theorem Sending.Grows.refl (acc : Sending) : acc.Grows acc := ⟨le_rfl, le_rfl, id, rfl⟩

theorem Sending.Grows.trans {a b c : Sending} (h : a.Grows b) (h' : b.Grows c) : a.Grows c :=
  ⟨h.sent.trans h'.sent, h.skipped.trans h'.skipped, fun hp => h'.pending (h.pending hp),
    h'.continuation.trans h.continuation⟩

theorem Sending.Grows.clean (h : acc.Grows acc') (hc : acc'.Clean) : acc.Clean := by
  obtain ⟨hpend, hskip⟩ := hc
  refine ⟨?_, Nat.le_zero.mp (hskip ▸ h.skipped)⟩
  by_contra hp
  rw [h.pending (Bool.eq_true_of_not_eq_false hp)] at hpend
  cases hpend

section Turn

variable {chain : ChainHead}

theorem sendChain_grows (h : Returns (sendChain q p item chain turns start acc) r acc' r') :
    acc.Grows acc' := by
  induction turns generalizing start acc r with
  | zero => exact absurd h not_returns_outOfBound
  | succ turns ih =>
    unfold sendChain at h
    rcases returns_ite.mp h with ⟨-, h⟩ | ⟨-, h⟩
    · simp only at h
      split at h
      · obtain ⟨rfl, rfl⟩ := returns_pure.mp h
        exact ⟨le_rfl, Nat.le_succ _, id, rfl⟩
      · exact absurd h not_returns_throw
      split at h
      · obtain ⟨rfl, rfl⟩ := returns_pure.mp h
        exact ⟨le_rfl, le_rfl, fun hp => by rw [hp]; rfl, rfl⟩
      obtain ⟨-, h⟩ := returns_guard.mp h
      obtain ⟨answer, r₁, -, hrest⟩ := returns_bind.mp h
      have hstep := ih hrest
      exact ⟨(Nat.le_add_right _ _).trans hstep.sent, hstep.skipped, hstep.pending,
        hstep.continuation⟩
    · obtain ⟨rfl, rfl⟩ := returns_pure.mp h
      exact .refl _

theorem serveChain_grows {frontier : FrontierState}
    (h : Returns (serveChain q p item chain frontier acc) r acc' r') : acc.Grows acc' := by
  unfold serveChain at h
  split at h
  · obtain ⟨rfl, rfl⟩ := returns_pure.mp h
    exact .refl _
  · obtain ⟨rfl, rfl⟩ := returns_pure.mp h
    exact ⟨le_rfl, le_rfl, fun _ => rfl, rfl⟩
  · obtain ⟨rfl, rfl⟩ := returns_pure.mp h
    exact ⟨le_rfl, Nat.le_succ _, id, rfl⟩
  · exact sendChain_grows h

/-- **What one chain's turn feeds the receiver**: a prefix of what is served from the start, and, when
    it ends with nothing pending and within the session's bound, through the head. -/
theorem sendChain_feeds (hr : Rises (·.lamport) ((q.streams item).log.chainOf chain.device))
    (hs : Serving item later chains r)
    (hfind : chains.find? (fun c => c.device = chain.device) = some chain)
    (h : Returns (sendChain q p item chain turns start acc) r acc' r') :
    ∃ es, Feeds p item chain r.streams es r'.streams ∧ Serving item later chains r' ∧
      (es = [] ∨ ∃ w, serveFrom (q.streams item).log chain.device start = .ok (some w) ∧
        es <+: (q.streams item).log.served chain.device w) ∧
      (acc'.Clean → acc'.sent < q.cap →
        (es = [] → deliveredThrough chain start = true) ∧
        ∀ z, es.getLast? = some z → chain.lamport ≤ z.lamport) := by
  induction turns generalizing start acc r with
  | zero => exact absurd h not_returns_outOfBound
  | succ turns ih =>
    unfold sendChain at h
    rcases returns_ite.mp h with ⟨hsent, h⟩ | ⟨hsent, h⟩
    · simp only at h
      split at h
      · -- the cursor cannot be served: the chain is skipped
        obtain ⟨rfl, rfl⟩ := returns_pure.mp h
        exact ⟨[], .nil, hs, .inl rfl, fun hclean => absurd hclean.2 (by simp)⟩
      · exact absurd h not_returns_throw
      rename_i es hes
      split at h
      · obtain ⟨rfl, rfl⟩ := returns_pure.mp h
        refine ⟨[], .nil, hs, .inl rfl, fun hclean _ => ?_⟩
        have hpend := hclean.1
        simp only [Bool.or_eq_false_iff, Bool.not_eq_false'] at hpend
        exact ⟨fun _ => hpend.2, nofun⟩
      · rename_i last hlast
        obtain ⟨-, h⟩ := returns_guard.mp h
        obtain ⟨answer, r₁, hframe, hrest⟩ := returns_bind.mp h
        obtain ⟨offered, hfind', hfeeds, hs₁⟩ := receiveFrame_entries hs hframe
        rw [hfind] at hfind'
        cases hfind'
        obtain ⟨more, hmore, hs', hserved, hclean⟩ := ih hs₁ hrest
        have hne : es ≠ [] := fun hnil => by
          rw [hnil] at hlast
          cases hlast
        obtain hnil | ⟨w, hw, hpage⟩ := acceptedChainEntries_ok hr hes
        · exact absurd hnil hne
        have hinit : more <+:
            (q.streams item).log.served chain.device (.above last.lamport) := by
          rcases hserved with rfl | ⟨w', hw', hpre⟩
          · exact List.nil_prefix
          · rw [(serveFrom_after hw').2] at hpre
            exact hpre
        refine ⟨es.map (·.toVerifiedEntry) ++ more, hfeeds.append hmore, hs',
          .inr ⟨w, hw, ?_⟩, fun hc hlt => ?_⟩
        · rw [← served_split hr hpage hlast]
          exact (prefix_append_right_inj _).mpr hinit
        · obtain ⟨hdel, hthrough⟩ := hclean hc hlt
          refine ⟨fun hnil => ?_, fun z hz => ?_⟩
          · rw [append_eq_nil_iff, map_eq_nil_iff] at hnil
            exact absurd hnil.1 hne
          · cases hm : more with
            | nil =>
              -- the page reached the head
              have hreach := hdel hm
              rw [hm, append_nil, getLast?_map, hlast] at hz
              cases hz
              simp only [deliveredThrough, decide_eq_true_eq] at hreach
              show chain.lamport ≤ last.cursor.lamport
              omega
            | cons m ms =>
              rw [getLast?_append_of_ne_nil _ (by rw [hm]; simp)] at hz
              exact hthrough z hz
    · obtain ⟨rfl, rfl⟩ := returns_pure.mp h
      exact ⟨[], .nil, hs, .inl rfl, fun _ hlt => absurd hlt hsent⟩

end Turn

/-! ## 4. What the receiver makes of it -/

/-- No entry of the log, stored or held, is under a hash of the chain. -/
def Apart (chain : List VerifiedEntry) (log : ChainLog) : Prop :=
  (∀ e ∈ log.accepted, ∀ c ∈ chain, c.entryHash ≠ e.entryHash) ∧
    ∀ e ∈ log.gapped, ∀ c ∈ chain, c.entryHash ≠ e.entryHash

/-- The honest chain is upheld on its stream, and the other streams are apart from it. -/
structure Guarded (s : StreamId) (d : DeviceFingerprint) (chain : List VerifiedEntry) (ρ : Streams) :
    Prop where
  upholds : Upholds d chain (ρ s).log
  drained : Drained (ρ s).log d
  apart : ∀ t, t ≠ s → Apart chain (ρ t).log

section Guarded

variable {chain : List VerifiedEntry} {o : TableSyncIngestOutcome}

@[simp] theorem put_self (ρ : Streams) (s : StreamId) (σ : StreamStore) : ρ.put s σ s = σ := by
  simp [Streams.put]

theorem put_of_ne (hne : t ≠ s) (σ : StreamStore) :
    (ρ.put s σ t).log = { (ρ t).log with elsewhere := (ρ.put s σ t).log.elsewhere } := by
  simp [Streams.put, hne]

theorem put_elsewhere (hne : t ≠ s) (σ : StreamStore) (hash : EntryHash) :
    (ρ.put s σ t).log.elsewhere hash =
      ((ρ t).log.elsewhere hash || σ.log.entries.any fun e => e.entryHash = hash) := by
  simp [Streams.put, hne]

theorem received_ingest {ctx : SyncCtx} {r : Received}
    (h : ingestReceived bound ctx σ r = some (.ok (o, σ'))) :
    σ' = σ ∨ ∃ report, ingest bound ctx σ.toReplica r.entry r.usableFloor =
      some (.ok (report, σ'.toReplica)) := by
  rcases ingestReceived_cases h with rfl | ⟨report, ρ, -, hing, rfl⟩
  · exact .inl rfl
  · refine .inr ⟨report, ?_⟩
    rw [settleCoverage_toReplica]
    exact hing

theorem Touches.apart {sc : Scope} {brings : VerifiedEntry → Prop} {σ σ' : Replica}
    (h : Touches sc brings σ σ') (hb : ∀ e, brings e → ∀ c ∈ chain, c.entryHash ≠ e.entryHash)
    (ha : Apart chain σ.log) : Apart chain σ'.log := by
  induction h with
  | refl => exact ha
  | tail _ ht ih =>
    refine ⟨fun e he => ?_, fun e he => ?_⟩
    · rcases ht.accepted e he with hold | hold | hnew
      · exact ih.1 e hold
      · exact ih.2 e hold
      · exact hb e hnew
    · rcases ht.gapped e he with hold | hnew
      · exact ih.2 e hold
      · exact hb e hnew

theorem Guarded.put_stream (h : Guarded s d chain ρ) (hup : Upholds d chain σ.log)
    (hd : Drained σ.log d) : Guarded s d chain (ρ.put s σ) where
  upholds := by rw [put_self]; exact hup
  drained := by rw [put_self]; exact hd
  apart t hne := by
    rw [put_of_ne hne]
    exact h.apart t hne

theorem Guarded.feed_other (h : Guarded s d chain ρ) (hother : ¬ (t = s ∧ offered.device = d))
    (hp : t = s → Placed d chain e) (ha : t ≠ s → ∀ c ∈ chain, c.entryHash ≠ e.entryHash)
    (he : ingestReceived p.bound (p.ctx t) (ρ t)
      ⟨offered.device, e, offered.floor, some offered.tip⟩ = some (.ok (o, σ))) :
    Guarded s d chain (ρ.put t σ) ∧ Untouched d (ρ s).log (ρ.put t σ s).log := by
  by_cases hts : t = s
  · subst hts
    have hdev : offered.device ≠ d := fun heq => hother ⟨rfl, heq⟩
    suffices hσ : Upholds d chain σ.log ∧ Untouched d (ρ t).log σ.log by
      refine ⟨h.put_stream hσ.1 (h.drained.untouched hσ.2), ?_⟩
      rw [put_self]
      exact hσ.2
    by_cases hed : e.device = offered.device
    · rcases received_ingest he with rfl | ⟨report, hing⟩
      · exact ⟨h.upholds, .refl _⟩
      · exact ingest_other h.upholds (hed ▸ hdev) (hp rfl) hing
    -- announced for another device than it is signed by: dropped
    have hsame : σ = ρ t := by
      unfold ingestReceived at he
      split at he
      · cases he
        rfl
      · cases he
        rfl
    rw [hsame]
    exact ⟨h.upholds, .refl _⟩
  · have hσ : Apart chain σ.log := by
      rcases received_ingest he with rfl | ⟨report, hing⟩
      · exact h.apart t hts
      have htouch : Touches (p.ctx t).scope (fun x => x = e) (ρ t).toReplica σ.toReplica :=
        ingest_touches rfl hing
      refine htouch.apart ?_ (h.apart t hts)
      rintro x rfl
      exact ha hts
    have hels : ∀ c ∈ chain, (ρ.put t σ s).log.elsewhere c.entryHash = false := by
      intro c hc
      rw [put_elsewhere (Ne.symm hts), h.upholds.elsewhere c hc, Bool.false_or]
      refine any_eq_false.mpr fun x hx heq => ?_
      exact hσ.1 _ (mem_map_of_mem hx) c hc (of_decide_eq_true heq).symm
    have hlog := put_of_ne (ρ := ρ) (Ne.symm hts) σ
    have hun : Untouched d (ρ s).log (ρ.put t σ s).log := by
      rw [hlog]
      exact ⟨rfl, rfl, rfl, fun _ hg _ => hg⟩
    refine ⟨⟨?_, h.drained.untouched hun, fun u hus => ?_⟩, hun⟩
    · rw [hlog]
      exact ⟨fun d => (h.upholds.sound d).congr rfl rfl rfl, h.upholds.stored, h.upholds.held, hels,
        h.upholds.witness, h.upholds.waits⟩
    · by_cases hut : u = t
      · subst hut
        rw [put_self]
        exact hσ
      · rw [put_of_ne hut]
        exact h.apart u hus

theorem Guarded.feeds_other (h : Guarded s d chain ρ) (hother : ¬ (t = s ∧ offered.device = d))
    (hp : t = s → ∀ e ∈ es, Placed d chain e)
    (ha : t ≠ s → ∀ e ∈ es, ∀ c ∈ chain, c.entryHash ≠ e.entryHash) (hf : Feeds p t offered ρ es ρ') :
    Guarded s d chain ρ' ∧ Untouched d (ρ s).log (ρ' s).log := by
  induction hf with
  | nil => exact ⟨h, .refl _⟩
  | cons he _ ih =>
    obtain ⟨hg, hun⟩ := h.feed_other hother (fun hts => hp hts _ mem_cons_self)
      (fun hts => ha hts _ mem_cons_self) he
    obtain ⟨hg', hun'⟩ := ih hg (fun hts x hx => hp hts x (mem_cons_of_mem _ hx))
      (fun hts x hx => ha hts x (mem_cons_of_mem _ hx))
    exact ⟨hg', hun.trans hun'⟩

/-- The stream is this one, and the signer an effective writer. -/
structure Admits (p : Receiver) (s : StreamId) (d : DeviceFingerprint) : Prop where
  stream : (p.ctx s).scope.streamId = s
  writer : (p.ctx s).effectiveWriter d = true

theorem received_own (hc : HonestChain s d chain) (hp : Admits p s d) (hx : e ∈ chain)
    (hdev : offered.device = d)
    (he : ingestReceived p.bound (p.ctx s) (ρ s)
      ⟨offered.device, e, offered.floor, some offered.tip⟩ = some (.ok (o, σ))) :
    ∃ report, ingest p.bound (p.ctx s) (ρ s).toReplica e offered.floor =
      some (.ok (report, σ.toReplica)) := by
  have hstream : ¬ e.streamId ≠ (p.ctx s).scope.streamId :=
    not_not.mpr ((hc.stream e hx).trans hp.stream.symm)
  have hdevice : ¬ e.device ≠ offered.device := not_not.mpr ((hc.device e hx).trans hdev.symm)
  unfold ingestReceived at he
  simp only [hstream, hdevice, if_false] at he
  split at he
  · cases he
  split at he
  · cases he
  · cases he
  rename_i report ρ' hing
  cases he
  refine ⟨report, ?_⟩
  rw [settleCoverage_toReplica]
  exact hing

theorem Guarded.feed_own (h : Guarded s d chain ρ) (hc : HonestChain s d chain) (hx : e ∈ chain)
    {report : IngestReport}
    (hing : ingest p.bound (p.ctx s) (ρ s).toReplica e floor = some (.ok (report, σ.toReplica))) :
    Guarded s d chain (ρ.put s σ) := by
  obtain ⟨hup, hd⟩ := ingest_own h.upholds h.drained hc hx hing
  exact h.put_stream hup hd

theorem Upholds.comes_next (h : Upholds d chain log) (hc : HonestChain s d chain) (hx : x ∈ chain)
    (hy : y ∈ chain) (hlink : Links x y) (hpast : TailPast log d x.lamport) : Comes log y floor := by
  obtain ⟨t, ht, hle⟩ := hpast
  have hw := (h.sound d).tail t ht
  obtain ⟨c, hcm, rfl⟩ := h.witness t hw
  have hyd := hc.device y hy
  by_cases hlt : x.lamport < c.lamport
  · -- the tail stands past the entry cited, and so at or past the next one
    refine .passed ?_
    rw [hyd]
    exact ⟨c.cursor, ht, hc.next_le hx hy hlink hcm hlt⟩
  · have heq : x.lamport = c.lamport := le_antisymm hle (not_lt.mp hlt)
    obtain rfl := hc.rises.eq_of_key hx hcm heq
    refine .next x.cursor ?_ hlink
    rw [hyd]
    exact hw

variable (h : Guarded s d chain ρ) (hc : HonestChain s d chain) (hp : Admits p s d)
  (hdev : offered.device = d)

include h hc hp hdev

theorem Guarded.feeds_reaches (hes : ∀ e ∈ es, e ∈ chain) (hlinked : es.IsChain Links)
    (hfirst : ∀ x, es.head? = some x → Comes (ρ s).log x offered.floor)
    (hf : Feeds p s offered ρ es ρ') :
    Guarded s d chain ρ' ∧ ∀ z, es.getLast? = some z → TailPast (ρ' s).log d z.lamport := by
  induction es generalizing ρ with
  | nil =>
    cases hf
    exact ⟨h, nofun⟩
  | cons x es ih =>
    cases hf with
    | cons he hf =>
      rename_i σ o
      have hx : x ∈ chain := hes x mem_cons_self
      obtain ⟨report, hing⟩ := received_own hc hp hx hdev he
      have hg := h.feed_own hc hx hing
      have hpast : TailPast σ.log d x.lamport :=
        ingest_reaches h.upholds h.drained hc hx hp.writer (hfirst x rfl) hing
      cases es with
      | nil =>
        cases hf
        refine ⟨hg, fun z hz => ?_⟩
        cases hz
        rw [put_self]
        exact hpast
      | cons y es =>
        obtain ⟨hlink, hlinked'⟩ := isChain_cons_cons.mp hlinked
        have hup : Upholds d chain (ρ.put s σ s).log := hg.upholds
        rw [put_self] at hup
        have hy : y ∈ chain := hes y (mem_cons_of_mem _ mem_cons_self)
        obtain ⟨hg', hlast⟩ := ih hg (forall_mem_cons.mp hes).2 hlinked'
          (fun z hz => by
            cases hz
            rw [put_self]
            exact hup.comes_next hc hx hy hlink hpast) hf
        refine ⟨hg', fun z hz => hlast z ?_⟩
        rw [getLast?_cons_cons] at hz
        exact hz

theorem Guarded.feeds_own (hes : ∀ e ∈ es, e ∈ chain) (hf : Feeds p s offered ρ es ρ') :
    Guarded s d chain ρ' ∧ ((ρ' s).log.chainOf d = [] →
      (ρ s).log.chainOf d = [] ∧ (ρ' s).log.chainWitness d = (ρ s).log.chainWitness d) := by
  induction hf with
  | nil => exact ⟨h, fun hnil => ⟨hnil, rfl⟩⟩
  | @cons ρ _ e _ σ _ he _ ih =>
    have hx := hes e mem_cons_self
    obtain ⟨report, hing⟩ := received_own hc hp hx hdev he
    obtain ⟨hg, hkeep⟩ := ih (h.feed_own hc hx hing) (forall_mem_cons.mp hes).2
    refine ⟨hg, fun hnil => ?_⟩
    obtain ⟨hnil', hwit⟩ := hkeep hnil
    rw [put_self] at hnil' hwit
    refine ⟨?_, hwit.trans (ingest_witness h.upholds hc hx hing hnil')⟩
    exact subset_nil.mp (hnil' ▸ ingest_chainOf_subset hing)

/-- **A chain not known, fed without its first entry and without a floor, stays unknown.** -/
theorem Guarded.feeds_strands (hfloor : offered.floor = none)
    (hes : ∀ e ∈ es, e ∈ chain ∧ e.prevHash ≠ none) (hwit : (ρ s).log.chainWitness d = none)
    (hf : Feeds p s offered ρ es ρ') : Guarded s d chain ρ' ∧ (ρ' s).log.chainWitness d = none := by
  induction hf with
  | nil => exact ⟨h, hwit⟩
  | @cons ρ _ e _ σ _ he _ ih =>
    obtain ⟨hx, hprev⟩ := hes e mem_cons_self
    obtain ⟨report, hing⟩ := received_own hc hp hx hdev he
    refine ih (h.feed_own hc hx hing) (forall_mem_cons.mp hes).2 ?_
    rw [put_self]
    exact ingest_strands h.upholds hc hx hwit hprev (by rw [hfloor]; nofun) hing

end Guarded

/-! ## 5. One chain, from the frontier to the head -/

theorem served_suffix (h : Rises (·.lamport) (log.chainOf d)) (w : Window) :
    log.served d w <:+ log.chainOf d := by
  unfold ChainLog.served
  cases w with
  | all =>
    have hfilter : (log.chainOf d).filter (fun e => Window.admits .all e.lamport) = log.chainOf d :=
      filter_eq_self.mpr fun e _ => rfl
    rw [hfilter]
  | above n =>
    have hfilter : (log.chainOf d).filter (fun e => Window.admits (.above n) e.lamport) =
        (log.chainOf d).filter fun e => n + 1 ≤ e.lamport := rfl
    rw [hfilter]
    exact h.filter_suffix (n + 1)
  | upFrom n => exact h.filter_suffix n

/-- **What is served from an entry at or above the floor is linked**, and starts with that entry, or
    with the one after it. -/
theorem Sound.serves (h : Sound log d) (he : e ∈ log.chainOf d)
    (hfloor : log.belowFloor d e.lamport = false) :
    ∃ rest, log.served d (.upFrom e.lamport) = e :: rest ∧ log.served d (.above e.lamport) = rest ∧
      (e :: rest).IsChain Links := by
  obtain ⟨pre, rest, hsplit⟩ := append_of_mem he
  have hrises := h.rises
  rw [hsplit] at hrises
  obtain ⟨habove, hfrom⟩ := hrises.filter_from
  refine ⟨rest, ?_, ?_, ?_⟩
  · unfold ChainLog.served
    rw [hsplit]
    exact hfrom
  · unfold ChainLog.served
    rw [hsplit]
    exact habove
  · -- none of them lies below the floor, so they end the path
    have hkept : (e :: rest).filter (fun x => !log.belowFloor d x.lamport) = e :: rest := by
      refine filter_eq_self.mpr fun x hx => ?_
      have hle : e.lamport ≤ x.lamport := by
        rcases mem_cons.mp hx with rfl | hx
        · exact le_rfl
        · exact ((pairwise_cons.mp (pairwise_append.mp hrises).2.1).1 x hx).le
      cases hf : log.retainedFloors d with
      | none => rw [belowFloor_of_none hf]; rfl
      | some f =>
        rw [belowFloor_of_some hf] at hfloor ⊢
        have hnot : ¬ e.lamport < f.lamport := of_decide_eq_false hfloor
        rw [decide_eq_false (by omega)]
        rfl
    have hsuffix : e :: rest <:+ log.pathOf d := by
      unfold ChainLog.pathOf
      rw [hsplit, filter_append, hkept]
      exact suffix_append _ _
    exact h.linked.suffix hsuffix

theorem cursorMatches_mem (h : cursorMatches log d c = .ok true) :
    ∃ e ∈ log.chainOf d, e.cursor = c := by
  unfold cursorMatches at h
  split at h
  · cases h
  rename_i stored hfind
  split at h
  · rename_i hhash
    have hboth := find?_some hfind
    simp only [decide_eq_true_eq] at hboth
    refine ⟨stored.toVerifiedEntry, mem_filter.mpr
      ⟨mem_map_of_mem (mem_of_find?_eq_some hfind), decide_eq_true hboth.1⟩, ?_⟩
    show (⟨stored.lamport, stored.entryHash⟩ : ChainCursor) = c
    rw [hboth.2, hhash]
  · cases h

theorem cursorMatches_of_mem (h : Rises (·.lamport) (log.chainOf d)) (he : e ∈ log.chainOf d) :
    cursorMatches log d e.cursor = .ok true := by
  obtain ⟨hacc, hdev⟩ := mem_filter.mp he
  obtain ⟨stored, hmem, rfl⟩ := mem_map.mp hacc
  unfold cursorMatches
  cases hfind : log.entries.find? fun x => x.device = d ∧ x.lamport = stored.cursor.lamport with
  | none =>
    have hnone := find?_eq_none.mp hfind stored hmem
    simp only [decide_eq_true_eq] at hnone hdev
    exact absurd ⟨hdev, rfl⟩ hnone
  | some found =>
    have hboth := find?_some hfind
    simp only [decide_eq_true_eq] at hboth
    have hfound : found.toVerifiedEntry ∈ log.chainOf d := mem_filter.mpr
      ⟨mem_map_of_mem (mem_of_find?_eq_some hfind), decide_eq_true hboth.1⟩
    have hsame := h.eq_of_key hfound he hboth.2
    exact if_pos (congrArg VerifiedEntry.entryHash hsame)

theorem directSuccessor_mem (hr : Rises (·.lamport) (log.chainOf d)) {w : ChainCursor}
    (h : directSuccessorLamport log d w = some n) :
    ∃ e ∈ log.chainOf d, e.lamport = n ∧ e.prevHash = some w.entryHash ∧ w.lamport < e.lamport := by
  unfold directSuccessorLamport at h
  obtain ⟨stored, hfind, rfl⟩ := Option.map_eq_some_iff.mp h
  have hboth := find?_some hfind
  simp only [decide_eq_true_eq] at hboth
  refine ⟨stored.toVerifiedEntry, ?_, rfl, hboth.1, hboth.2⟩
  rw [← chainByLamport_eq hr]
  exact mem_map_of_mem (mem_of_find?_eq_some hfind)

/-- What a frontier tells of the receiver's chain. -/
inductive Fronts (log : ChainLog) (d : DeviceFingerprint) : FrontierState → Prop where
  | empty (ht : log.chainTail d = none) (hw : log.chainWitness d = none) : Fronts log d .empty
  | accepted {c : ChainCursor} (ht : log.chainTail d = some c) : Fronts log d (.accepted c)
  | restore {w : ChainCursor} (ht : log.chainTail d = none) (hw : log.chainWitness d = some w) :
      Fronts log d (.restore w)

theorem fronts (hs : Sound σ.log d) : Fronts σ.log d (chainFrontier σ d) := by
  unfold chainFrontier
  cases ht : σ.log.chainTail d with
  | some t =>
    rw [hs.tail t ht]
    simp only [lt_irrefl, if_false]
    exact .accepted ht
  | none =>
    cases hw : σ.log.chainWitness d with
    | none => exact .empty ht hw
    | some w => exact .restore ht hw

/-- **What the plan of a chain tells of its head and the frontier.** -/
inductive Planned (head : ChainHead) : FrontierState → ChainPlan → Prop where
  | beginning : Planned head .empty (.send .beginning)
  | complete {c : ChainCursor} (hle : head.lamport ≤ c.lamport) : Planned head (.accepted c) .complete
  | diverged {c : ChainCursor} : Planned head (.accepted c) .diverged
  | behind {w : ChainCursor} : Planned head (.restore w) .pending
  | floor {frontier : FrontierState} {f : ChainCursor} (hne : frontier ≠ .empty)
      (hf : head.floor = some f) (habove : ∀ w, frontier = .restore w → w.lamport < f.lamport) :
      Planned head frontier (.send (.at f))
  | after {c : ChainCursor} (hlt : c.lamport < head.lamport)
      (hfl : floorAbove head c.lamport = none) : Planned head (.accepted c) (.send (.after c))
  | witness {w : ChainCursor} (hfl : floorAbove head w.lamport = none) :
      Planned head (.restore w) (.send (.at w))

theorem planned (head : ChainHead) (frontier : FrontierState) :
    Planned head frontier (chainPlan head frontier) := by
  cases frontier with
  | empty => exact .beginning
  | accepted c =>
    simp only [chainPlan]
    split
    · rename_i hlt
      exact .complete hlt.le
    rename_i hge
    split
    · rename_i heq
      split
      · exact .complete heq.ge
      · exact .diverged
    · rename_i hne
      split
      · rename_i f hf
        exact .floor nofun (Option.filter_eq_some_iff.mp hf).1 nofun
      · rename_i hfl
        exact .after (by omega) hfl
  | restore w =>
    simp only [chainPlan]
    split
    · exact .behind
    split
    · rename_i f hf
      obtain ⟨hf, habove⟩ := Option.filter_eq_some_iff.mp hf
      refine .floor nofun hf fun w' heq => ?_
      cases heq
      exact of_decide_eq_true habove
    · rename_i hfl
      exact .witness hfl

/-- The receiver does not know the chain; the sender has it without its first entry and a floor. -/
def Stranded (sender receiver : StreamStore) (d : DeviceFingerprint) : Prop :=
  chainFrontier receiver d = .empty ∧ sender.log.retainedFloors d = none ∧
    ∃ lowest, (chainByLamport sender.log d).head? = some lowest ∧ lowest.prevHash ≠ none

/-- The receiver's tail has come to the head, exactly when the chain is not stranded at its start. -/
def CaughtUp (q : Sender) (s : StreamId) (d : DeviceFingerprint) (head : ChainHead) (ρ ρ' : Streams) :
    Prop :=
  TailPast (ρ' s).log d head.lamport ↔ ¬ Stranded (q.streams s) (ρ s) d

/-- The head tells the tail and the floor of the chain. -/
structure Offers (σ : StreamStore) (d : DeviceFingerprint) (head : ChainHead) : Prop where
  device : head.device = d
  tail : σ.log.chainTail d = some head.tip
  floor : head.floor = σ.log.retainedFloors d

section Own

variable {chain : List VerifiedEntry}

/-- What is known on both sides when the chain's turn comes. -/
structure Ready (q : Sender) (p : Receiver) (s : StreamId) (d : DeviceFingerprint)
    (chain : List VerifiedEntry) (head : ChainHead) (ρ : Streams) : Prop where
  honest : HonestChain s d chain
  admits : Admits p s d
  sender : Upholds d chain (q.streams s).log
  offers : Offers (q.streams s) d head
  receiver : Guarded s d chain ρ

/-- The entries are fed, and the last of them stands at the head. -/
def FeedsUp (p : Receiver) (s : StreamId) (head : ChainHead) (ρ : Streams)
    (es : List VerifiedEntry) (ρ' : Streams) : Prop :=
  Feeds p s head ρ es ρ' ∧ ∃ z, es.getLast? = some z ∧ z.lamport = head.lamport

theorem Ready.mem_chain (h : Ready q p s d chain head ρ) (he : e ∈ (q.streams s).log.chainOf d) :
    e ∈ chain := by
  obtain ⟨hacc, hdev⟩ := mem_filter.mp he
  exact (h.sender.stored e hacc).mem (of_decide_eq_true hdev)

/-- **A turn that is not delivered from the start feeds all that is served from there**, once it ends
    with nothing pending. -/
theorem sendChain_delivers (h : Ready q p s d chain head r.streams) (hs : Serving s later chains r)
    (hfind : chains.find? (fun c => c.device = head.device) = some head)
    (hstart : deliveredThrough head start = false)
    (hrun : Returns (sendChain q p s head turns start acc) r acc' r') :
    ∃ es, Feeds p s head r.streams es r'.streams ∧ Serving s later chains r' ∧
      (∀ e ∈ es, e ∈ chain) ∧
      (acc'.Clean → acc'.sent < q.cap →
        ∃ w, serveFrom (q.streams s).log d start = .ok (some w) ∧
          es = (q.streams s).log.served d w ∧
          ∃ z, es.getLast? = some z ∧ z.lamport = head.lamport) := by
  have hdev := h.offers.device
  subst hdev
  have hrises := (h.sender.sound head.device).rises
  obtain ⟨es, hfeeds, hs', hserved, hclean⟩ := sendChain_feeds hrises hs hfind hrun
  have hsub : ∀ e ∈ es, e ∈ (q.streams s).log.chainOf head.device := by
    rcases hserved with rfl | ⟨w, -, hinit⟩
    · nofun
    · exact fun e he => mem_of_mem_filter (hinit.subset he)
  refine ⟨es, hfeeds, hs', fun e he => h.mem_chain (hsub e he), fun hc hlt => ?_⟩
  obtain ⟨hnil, hthrough⟩ := hclean hc hlt
  rcases hserved with rfl | ⟨w, hw, hinit⟩
  · rw [hnil rfl] at hstart
    cases hstart
  have hne : es ≠ [] := fun hempty => by
    rw [hnil hempty] at hstart
    cases hstart
  obtain ⟨a, ha⟩ : ∃ a, es.getLast? = some a := ⟨_, getLast?_eq_some_getLast hne⟩
  -- the last entry served is the tail, which the head names
  have hserved_ne : (q.streams s).log.served head.device w ≠ [] := fun hempty => by
    rw [hempty] at hinit
    exact hne (List.prefix_nil.mp hinit)
  have htail := h.offers.tail
  rw [chainTail_eq hrises, ← getLast?_of_suffix (served_suffix hrises w) hserved_ne] at htail
  obtain ⟨z, hz, hzcur⟩ := Option.map_eq_some_iff.mp htail
  have hzl : z.lamport = head.lamport := congrArg ChainCursor.lamport hzcur
  have heq : es = (q.streams s).log.served head.device w :=
    (hrises.sublist filter_sublist).eq_of_initial hinit ha hz (hzl ▸ hthrough a ha)
  exact ⟨w, hw, heq, z, heq ▸ hz, hzl⟩

section

variable (h : Ready q p s d chain head ρ)

include h

theorem Ready.reaches (hserved : (q.streams s).log.served d w = x :: rest)
    (hlinked : (x :: rest).IsChain Links) (hx : x.device = d → Comes (ρ s).log x head.floor)
    (hfeeds : FeedsUp p s head ρ ((q.streams s).log.served d w) ρ') :
    TailPast (ρ' s).log d head.lamport := by
  obtain ⟨hf, z, hz, hzl⟩ := hfeeds
  have hes : ∀ e ∈ (q.streams s).log.served d w, e ∈ chain := fun e he =>
    h.mem_chain (mem_of_mem_filter he)
  rw [← hzl]
  refine (h.receiver.feeds_reaches h.honest h.admits h.offers.device hes (hserved ▸ hlinked) ?_ hf).2
    z hz
  intro y hy
  rw [hserved] at hy
  cases hy
  exact hx (h.honest.device x (hes x (hserved ▸ mem_cons_self)))

theorem Ready.floor_served (hf : head.floor = some f) :
    ∃ x rest, x ∈ (q.streams s).log.chainOf d ∧ x.cursor = f ∧
      (q.streams s).log.served d (.upFrom f.lamport) = x :: rest ∧ (x :: rest).IsChain Links := by
  have hfloor := h.offers.floor
  rw [hf] at hfloor
  obtain ⟨x, hx, rfl⟩ := (h.sender.sound d).floor f hfloor.symm
  have hbelow : (q.streams s).log.belowFloor d x.lamport = false := by
    rw [belowFloor_of_some hfloor.symm]
    exact decide_eq_false (lt_irrefl _)
  obtain ⟨rest, hserved, -, hlinked⟩ := (h.sender.sound d).serves hx hbelow
  exact ⟨x, rest, hx, rfl, hserved, hlinked⟩

theorem Ready.reaches_floor (hf : head.floor = some f)
    (hw : (ρ s).log.chainTail d = none → ∀ w, (ρ s).log.chainWitness d = some w → w.lamport < f.lamport)
    (hserve : serveFrom (q.streams s).log d (.at f) = .ok (some w))
    (hfeeds : FeedsUp p s head ρ ((q.streams s).log.served d w) ρ') :
    TailPast (ρ' s).log d head.lamport := by
  obtain ⟨x, rest, hx, rfl, hserved, hlinked⟩ := h.floor_served hf
  have hwin : w = .upFrom x.lamport := by
    simp only [serveFrom, cursorMatches_of_mem (h.sender.sound d).rises hx] at hserve
    cases hserve
    rfl
  subst hwin
  refine h.reaches hserved hlinked (fun hdev => .floor hf fun ht v hv => .inr ?_) hfeeds
  rw [hdev] at ht hv
  exact hw ht v hv

theorem Ready.not_below (hfloor : floorAbove head n = none) (hle : n ≤ m) :
    (q.streams s).log.belowFloor d m = false := by
  cases hf : head.floor with
  | none =>
    rw [h.offers.floor] at hf
    exact belowFloor_of_none hf m
  | some f =>
    unfold floorAbove at hfloor
    rw [hf] at hfloor
    have hnot : ¬ n < f.lamport := by simpa using hfloor
    rw [h.offers.floor] at hf
    rw [belowFloor_of_some hf]
    exact decide_eq_false (by omega)

theorem Ready.reaches_after (ht : (ρ s).log.chainTail d = some c)
    (hfloor : floorAbove head c.lamport = none)
    (hserve : serveFrom (q.streams s).log d (.after c) = .ok (some w))
    (hfeeds : FeedsUp p s head ρ ((q.streams s).log.served d w) ρ') :
    TailPast (ρ' s).log d head.lamport := by
  obtain ⟨hmatch, rfl⟩ := serveFrom_after hserve
  obtain ⟨e, he, rfl⟩ := cursorMatches_mem hmatch
  obtain ⟨rest, -, habove, hlinked⟩ := (h.sender.sound d).serves he (h.not_below hfloor le_rfl)
  have habove' : (q.streams s).log.served d (.above e.cursor.lamport) = rest := habove
  cases rest with
  | nil =>
    obtain ⟨-, z, hz, -⟩ := hfeeds
    rw [habove'] at hz
    cases hz
  | cons x rest =>
    obtain ⟨hlink, hlinked'⟩ := isChain_cons_cons.mp hlinked
    refine h.reaches habove' hlinked' (fun hdev => .next e.cursor ?_ hlink) hfeeds
    rw [hdev]
    exact (h.receiver.upholds.sound d).tail _ ht

theorem Ready.reaches_witness (ht : (ρ s).log.chainTail d = none)
    (hc : (ρ s).log.chainWitness d = some c) (hfloor : floorAbove head c.lamport = none)
    (hserve : serveFrom (q.streams s).log d (.at c) = .ok (some w))
    (hfeeds : FeedsUp p s head ρ ((q.streams s).log.served d w) ρ') :
    TailPast (ρ' s).log d head.lamport := by
  simp only [serveFrom] at hserve
  split at hserve
  · cases hserve
  · -- the sender has the witness itself
    rename_i hmatch
    cases hserve
    obtain ⟨e, he, rfl⟩ := cursorMatches_mem hmatch
    obtain ⟨rest, hserved, -, hlinked⟩ := (h.sender.sound d).serves he (h.not_below hfloor le_rfl)
    exact h.reaches hserved hlinked (fun hdev => .again (hdev ▸ ht) (hdev ▸ hc)) hfeeds
  · split at hserve
    · -- it has the successor of the witness
      rename_i n hsucc
      cases hserve
      obtain ⟨e, he, rfl, hprev, hlt⟩ := directSuccessor_mem (h.sender.sound d).rises hsucc
      obtain ⟨rest, hserved, -, hlinked⟩ := (h.sender.sound d).serves he (h.not_below hfloor hlt.le)
      exact h.reaches hserved hlinked (fun hdev => .next c (hdev ▸ hc) hprev) hfeeds
    · split at hserve <;> cases hserve

end

theorem head?_chainByLamport (h : Rises (·.lamport) (log.chainOf d)) :
    (log.chainOf d).head? = (chainByLamport log d).head?.map (·.toVerifiedEntry) := by
  rw [← chainByLamport_eq h, head?_map]

theorem Ready.reaches_beginning (h : Ready q p s d chain head ρ) (ht : (ρ s).log.chainTail d = none)
    (hw : (ρ s).log.chainWitness d = none)
    (hfeeds : Feeds p s head ρ ((q.streams s).log.chainOf d) ρ') : CaughtUp q s d head ρ ρ' := by
  have hsound := h.sender.sound d
  have hes : ∀ e ∈ (q.streams s).log.chainOf d, e ∈ chain := fun e he => h.mem_chain he
  obtain ⟨z, hz, hzcur⟩ : ∃ z, ((q.streams s).log.chainOf d).getLast? = some z ∧
      z.cursor = head.tip := by
    have htail := h.offers.tail
    rw [chainTail_eq hsound.rises] at htail
    exact Option.map_eq_some_iff.mp htail
  have hzl : z.lamport = head.lamport := congrArg ChainCursor.lamport hzcur
  have hempty : chainFrontier (ρ s) d = .empty := by
    unfold chainFrontier
    rw [ht, hw]
  cases hfloor : head.floor with
  | some f =>
    -- what lies below the floor is fed first, and then the floor is adopted
    refine ⟨fun _ hstr => ?_, fun _ => ?_⟩
    · have hnone := hstr.2.1
      rw [← h.offers.floor, hfloor] at hnone
      cases hnone
    · obtain ⟨x, rest, hx, rfl, hserved, hlinked⟩ := h.floor_served hfloor
      obtain ⟨stale, hstale⟩ := served_suffix hsound.rises (.upFrom x.cursor.lamport)
      rw [← hstale] at hfeeds
      obtain ⟨ρ₁, hold, hnew⟩ := hfeeds.split
      obtain ⟨hg, hkept⟩ := h.receiver.feeds_own h.honest h.admits h.offers.device
        (fun e he => hes e (hstale ▸ mem_append_left _ he)) hold
      have hready : Ready q p s d chain head ρ₁ := { h with receiver := hg }
      refine hready.reaches hserved hlinked (fun hdev => .floor hfloor fun ht₁ w hw₁ => ?_)
        ⟨hnew, z, ?_, hzl⟩
      · rw [hdev] at ht₁ hw₁
        rw [(hkept ((hg.upholds.sound d).chainOf_eq_nil ht₁)).2, hw] at hw₁
        cases hw₁
      · rw [getLast?_of_suffix (served_suffix hsound.rises _) (by rw [hserved]; simp)]
        exact hz
  | none =>
    have hnofloor : (q.streams s).log.retainedFloors d = none := h.offers.floor ▸ hfloor
    obtain ⟨x, rest, hcons⟩ : ∃ x rest, (q.streams s).log.chainOf d = x :: rest :=
      exists_cons_of_ne_nil fun hnil => by
        rw [hnil] at hz
        cases hz
    have hx : x ∈ (q.streams s).log.chainOf d := hcons ▸ mem_cons_self
    have hlinked : ((q.streams s).log.chainOf d).IsChain Links := by
      have hpath : (q.streams s).log.pathOf d = (q.streams s).log.chainOf d := by
        unfold ChainLog.pathOf
        exact filter_eq_self.mpr fun e _ => by rw [belowFloor_of_none hnofloor]; rfl
      exact hpath ▸ hsound.linked
    have hlowest : (chainByLamport (q.streams s).log d).head?.map (·.toVerifiedEntry) = some x := by
      rw [← head?_chainByLamport hsound.rises, hcons]
      rfl
    obtain ⟨lowest, hhead, rfl⟩ := Option.map_eq_some_iff.mp hlowest
    by_cases hprev : lowest.prevHash = none
    · refine ⟨fun _ hstr => ?_, fun _ => ?_⟩
      · obtain ⟨lowest', hhead', hne⟩ := hstr.2.2
        rw [hhead] at hhead'
        cases hhead'
        exact hne hprev
      · rw [← hzl]
        refine (h.receiver.feeds_reaches h.honest h.admits h.offers.device hes hlinked ?_ hfeeds).2
          z hz
        intro y hy
        rw [hcons] at hy
        cases hy
        have hdev := h.honest.device _ (h.mem_chain hx)
        refine .first ?_ hprev
        rw [hdev]
        exact hw
    · refine ⟨fun ⟨t, htail, _⟩ => ?_, fun hnot => absurd ⟨hempty, hnofloor, lowest, hhead, hprev⟩ hnot⟩
      -- every entry sent has a predecessor, so none of them is stored
      have hall : ∀ e ∈ (q.streams s).log.chainOf d, e ∈ chain ∧ e.prevHash ≠ none := by
        refine fun e he => ⟨hes e he, fun hnone => ?_⟩
        have hle := h.honest.first_le (hes e he) hnone (h.mem_chain hx)
        have hrises := hsound.rises
        rw [hcons] at he hrises
        rcases mem_cons.mp he with rfl | he
        · exact hprev hnone
        · exact absurd ((pairwise_cons.mp hrises).1 e he) (not_lt.mpr hle)
      obtain ⟨hg, hnone⟩ := h.receiver.feeds_strands h.honest h.admits h.offers.device hfloor hall hw
        hfeeds
      rw [(hg.upholds.sound d).tail t htail] at hnone
      cases hnone

/-- The turn keeps the chain guarded; and if it ends with nothing pending, the receiver's tail is at
    the head unless the chain is stranded. -/
structure Turn (q : Sender) (s : StreamId) (d : DeviceFingerprint) (chain : List VerifiedEntry)
    (later : List StreamId) (chains : List ChainHead) (head : ChainHead) (acc' : Sending)
    (r r' : Receiving) : Prop where
  guarded : Guarded s d chain r'.streams
  serving : Serving s later chains r'
  done : acc'.Clean → acc'.sent < q.cap →
    CaughtUp q s d head r.streams r'.streams

theorem turn_of_pure (h : Ready q p s d chain head r.streams) (hs : Serving s later chains r)
    (hrun : Returns (pure acc₁ : Session Sending) r acc' r')
    (hdone : acc₁.Clean → CaughtUp q s d head r.streams r.streams) :
    Turn q s d chain later chains head acc' r r' := by
  obtain ⟨rfl, rfl⟩ := returns_pure.mp hrun
  exact ⟨h.receiver, hs, fun hc _ => hdone hc⟩

variable (h : Ready q p s d chain head r.streams) (hs : Serving s later chains r)
  (hfind : chains.find? (fun c => c.device = head.device) = some head)

include h hs hfind

theorem serveChain_sends (hstart : deliveredThrough head start = false)
    (hrun : Returns (sendChain q p s head (q.cap + 1) start acc) r acc' r')
    (hreach : ∀ w ρ', serveFrom (q.streams s).log d start = .ok (some w) →
      FeedsUp p s head r.streams ((q.streams s).log.served d w) ρ' →
      CaughtUp q s d head r.streams ρ') : Turn q s d chain later chains head acc' r r' := by
  obtain ⟨es, hfeeds, hs', hes, hclean⟩ := sendChain_delivers h hs hfind hstart hrun
  refine ⟨(h.receiver.feeds_own h.honest h.admits h.offers.device hes hfeeds).1, hs',
    fun hc hlt => ?_⟩
  obtain ⟨w, hw, rfl, hend⟩ := hclean hc hlt
  exact hreach w _ hw ⟨hfeeds, hend⟩

theorem serveChain_own
    (hrun : Returns (serveChain q p s head (chainFrontier (r.streams s) d) acc) r acc' r') :
    Turn q s d chain later chains head acc' r r' := by
  have hfronts := fronts (h.receiver.upholds.sound d)
  have hplanned := planned head (chainFrontier (r.streams s) d)
  -- only a chain the receiver does not know can be stranded
  have hup : ∀ {ρ'}, chainFrontier (r.streams s) d ≠ .empty → TailPast (ρ' s).log d head.lamport →
      CaughtUp q s d head r.streams ρ' := fun hne hpast => ⟨fun _ hstr => hne hstr.1, fun _ => hpast⟩
  unfold serveChain at hrun
  generalize hfr : chainFrontier (r.streams s) d = frontier at *
  generalize hplan : chainPlan head frontier = plan at *
  cases hplanned with
  | complete hle =>
    cases hfronts with
    | accepted ht => exact turn_of_pure h hs hrun fun _ => hup nofun ⟨_, ht, hle⟩
  | diverged => exact turn_of_pure h hs hrun fun hc => absurd hc.2 (Nat.succ_ne_zero _)
  | behind => exact turn_of_pure h hs hrun fun hc => absurd hc.1 Bool.noConfusion
  | floor hne hf habove =>
    refine serveChain_sends h hs hfind rfl hrun fun w ρ' hserve hfeeds => ?_
    refine hup hne (h.reaches_floor hf (fun ht c hw => habove c ?_) hserve hfeeds)
    rw [← hfr, chainFrontier, ht, hw]
  | @after t hlt hfl =>
    cases hfronts with
    | accepted ht =>
      have hstart : deliveredThrough head (.after t) = false := decide_eq_false (by omega)
      refine serveChain_sends h hs hfind hstart hrun fun w ρ' hserve hfeeds => ?_
      exact hup nofun (h.reaches_after ht hfl hserve hfeeds)
  | witness hfl =>
    cases hfronts with
    | restore ht hw =>
      refine serveChain_sends h hs hfind rfl hrun fun w ρ' hserve hfeeds => ?_
      exact hup nofun (h.reaches_witness ht hw hfl hserve hfeeds)
  | beginning =>
    cases hfronts with
    | empty ht hw =>
      refine serveChain_sends h hs hfind rfl hrun fun w ρ' hserve ⟨hfeeds, _⟩ => ?_
      have hall : (q.streams s).log.served d .all = (q.streams s).log.chainOf d :=
        filter_eq_self.mpr fun e _ => rfl
      cases hserve
      rw [hall] at hfeeds
      exact h.reaches_beginning ht hw hfeeds

end Own

end RagRat.TableSync
