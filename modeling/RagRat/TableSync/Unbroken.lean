/-
  File:      RagRat/TableSync/Unbroken.lean
  Subject:   ONE BAD CHAIN AND THE REST OF THE SESSION. A direction between two reached stores ends
             without an error, whatever their chains are, and takes the turn of every chain of every
             common stream -- unless one of three things holds at its start (`Clear`):

  * the receiver purged a chain at a witness that conflicts with the tip the sender still owes: the
    sender's store refuses the cursor with an error that is not an unservable cursor;
  * an entry of the sender lies further ahead of the receiver's stream clock than an arrival may;
  * the sender's floor, or the receiver's witness, cites an entry the receiver does not have, and the
    receiver holds an entry above it that cites the same one (`NoLaterSibling`).

  `ChainTurn` says what becomes of a chain; `serveChain_ok`, `sendChains_ok`, `sendPage_ok` and
  `sendStreams_ok` go from its turn to all of them, `table_session_unbroken` to both directions.
-/
import RagRat.TableSync.Advance

namespace RagRat.TableSync

open List
open Lib.Ascending
open Lib.Fallible

variable {ρ ρ' ρ₀ ρ₁ : Streams} {d device : DeviceFingerprint}
  {heads heads' chains : List ChainHead} {later items : List StreamId}
  {offered head last : ChainHead} {base log log' : ChainLog} {start : ChainStart}
  {ends ends' : List TurnEnd} {r r' r₁ r₂ r₃ : Receiving} {p : Receiver} {t : StreamId}
  {es es₁ es₂ fed : List VerifiedEntry} {q : Sender} {acc acc' acc₁ : Sending} {σ σ₀ : StreamStore}
  {w : Window} {limit turns n rest : Nat} {e : VerifiedEntry}
  {left left' : DeviceFingerprint → Prop}

/-! ## 1. The receiver takes a frame -/

/-- Only the streams and the counts of entries differ. -/
structure Receiving.Alongside (r r' : Receiving) : Prop where
  items : r'.items = r.items
  inventory : r'.inventory = r.inventory
  lastDevice : r'.lastDevice = r.lastDevice
  offeredChains : r'.offeredChains = r.offeredChains

theorem Receiving.Alongside.refl (r : Receiving) : r.Alongside r := ⟨rfl, rfl, rfl, rfl⟩

theorem Serving.along (hs : Serving t later chains r) (h : r.Alongside r') : Serving t later chains r' :=
  ⟨h.items.trans hs.1, h.inventory.trans hs.2⟩

theorem Receiving.Alongside.trans (h : r₁.Alongside r₂) (h' : r₂.Alongside r₃) : r₁.Alongside r₃ :=
  ⟨h'.items.trans h.items, h'.inventory.trans h.inventory, h'.lastDevice.trans h.lastDevice,
    h'.offeredChains.trans h.offeredChains⟩

theorem Feeds.returns (hf : Feeds p t offered r.streams es ρ') :
    ∃ r', Returns (ingestEntries p t offered es) r () r' ∧ r'.streams = ρ' ∧ r.Alongside r' ∧
      r'.received = r.received := by
  generalize hρ : r.streams = ρ at hf
  induction hf generalizing r with
  | nil => exact ⟨r, rfl, hρ, .refl r, rfl⟩
  | @cons ρ ρ' e es σ o he _ ih =>
    subst hρ
    obtain ⟨r', hrest, hstreams, hsame, hreceived⟩ := ih
      (r := { r with
        streams := r.streams.put t σ
        newlyStored := r.newlyStored + if o = .stored then 1 else 0 }) rfl
    refine ⟨r', returns_bind.mpr ⟨(), _, ?_, hrest⟩, hstreams,
      ⟨hsame.items, hsame.inventory, hsame.lastDevice, hsame.offeredChains⟩, hreceived⟩
    unfold Returns ingestEntry
    rw [he]

theorem receiveFrame_entries_ok (hs : Serving t later chains r)
    (hfind : chains.find? (fun c => c.device = device) = some offered)
    (hcap : r.received + es.length ≤ p.limits.entriesPerSession)
    (hf : Feeds p t offered r.streams es ρ') :
    ∃ r', Returns (receiveFrame p (.entries t device es)) r none r' ∧ r'.streams = ρ' ∧
      r.Alongside r' ∧ r'.received = r.received + es.length := by
  obtain ⟨hitems, hinv⟩ := hs
  obtain ⟨r', hing, hstreams, hsame, hreceived⟩ :=
    Feeds.returns (r := { r with received := r.received + es.length }) hf
  refine ⟨r', returns_bind.mpr ⟨r, r, rfl, ?_⟩, hstreams,
    ⟨hsame.items, hsame.inventory, hsame.lastDevice, hsame.offeredChains⟩, hreceived⟩
  rw [hitems, hinv]
  simp only [receiveEntries, hfind]
  rw [if_neg (by simp), if_neg (not_lt.mpr hcap)]
  exact returns_bind.mpr ⟨⟨⟩, _, rfl, returns_bind.mpr ⟨(), r', hing, rfl⟩⟩

theorem receiveFrame_inventory_ok (hl : Listening (t :: later) r) (hpeer : p.peerCanPush = true)
    (hpage : chains.length ≤ p.limits.chainsPerPage)
    (hsession : r.offeredChains + chains.length ≤ p.limits.chainsPerSession)
    (horder : orderedAfterPrevious r.lastDevice chains = true) :
    ∃ r₀, Returns (receiveFrame p (.chainInventory t chains)) r
        (some (.chainFrontiers t
          (chains.map fun c => (c.device, chainFrontier (r.streams t) c.device)))) r₀ ∧
      Serving t later chains r₀ ∧ r₀.streams = r.streams ∧ r₀.received = r.received ∧
      r₀.offeredChains = r.offeredChains + chains.length ∧
      r₀.lastDevice = chains.getLast?.map ChainHead.device := by
  refine ⟨{ r with
    offeredChains := r.offeredChains + chains.length
    lastDevice := chains.getLast?.map ChainHead.device
    inventory := some chains }, returns_bind.mpr ⟨r, r, rfl, ?_⟩, ⟨hl.1, rfl⟩, rfl, rfl, rfl, rfl⟩
  rw [hl.1, hl.2]
  simp only [receiveInventory]
  rw [if_neg (by rw [hpeer]; exact Bool.noConfusion), if_neg]
  · exact returns_bind.mpr ⟨⟨⟩, _, rfl, hl.1 ▸ rfl⟩
  · rintro (hne | hlt | hlt | hno)
    · exact hne rfl
    · exact absurd hlt (not_lt.mpr hpage)
    · exact absurd hlt (not_lt.mpr hsession)
    · exact Bool.noConfusion (hno.symm.trans horder)

/-! ## 2. A window of a chain is sent -/

/-- Both sides have counted the same, and not more entries than the session may send. -/
structure Tally (q : Sender) (acc : Sending) (r : Receiving) : Prop where
  received : r.received = acc.sent
  offered : r.offeredChains = acc.offeredChains
  cap : acc.sent ≤ q.cap

/-- While a chain has its turn: every entry of the sender was receivable when it began, on the log
    `base`. -/
structure Turning (q : Sender) (p : Receiver) (t : StreamId) (head : ChainHead) (base : ChainLog) :
    Prop where
  opens : Opens p t
  sound : ∀ d, Sound (q.streams t).log d
  refuse : suffixRefusal head.floor (some head.tip) = none
  receivable : ∀ e ∈ (q.streams t).log.chainOf head.device, Receivable base head.floor e
  limits : p.limits = q.limits
  page : 0 < q.limits.entriesPerPage

/-- What has become of a run of entries sent in a turn, after those already `fed`. -/
structure Sent (q : Sender) (p : Receiver) (t : StreamId) (head : ChainHead) (base : ChainLog)
    (fed : List VerifiedEntry) (acc : Sending) (r : Receiving) (es : List VerifiedEntry)
    (acc' : Sending) (r' : Receiving) : Prop where
  feeds : Feeds p t head r.streams es r'.streams
  advances : Advances t head.device (fed ++ es) base (r'.streams t).log
  beside : Beside t r.streams r'.streams
  along : r.Alongside r'
  tally : Tally q acc' r'
  count : acc'.sent = acc.sent + es.length

theorem Sent.nil (hadv : Advances t head.device fed base (r.streams t).log) (ht : Tally q acc' r)
    (hcount : acc'.sent = acc.sent) : Sent q p t head base fed acc r [] acc' r where
  feeds := .nil
  advances := (append_nil fed).symm ▸ hadv
  beside := .refl t _
  along := .refl r
  tally := ht
  count := hcount

theorem Sent.trans (h : Sent q p t head base fed acc r es₁ acc₁ r₁)
    (h' : Sent q p t head base (fed ++ es₁) acc₁ r₁ es₂ acc' r') :
    Sent q p t head base fed acc r (es₁ ++ es₂) acc' r' where
  feeds := h.feeds.append h'.feeds
  advances := by
    rw [← append_assoc]
    exact h'.advances
  beside := h.beside.trans h'.beside
  along := h.along.trans h'.along
  tally := h'.tally
  count := by rw [h'.count, h.count, length_append, Nat.add_assoc]

theorem page_ok (hT : Turning q p t head base) (hs : Serving t later chains r)
    (hfind : chains.find? (fun c => c.device = head.device) = some head) (ht : Tally q acc r)
    (hadv : Advances t head.device fed base (r.streams t).log)
    (hes : ∀ e ∈ es, e ∈ (q.streams t).log.chainOf head.device)
    (hrise : Rises (·.lamport) (fed ++ es)) (hcap : acc.sent + es.length ≤ q.cap)
    (hroom : base.heldCount + fed.length + (q.cap - acc.sent) + 2 < p.bound) :
    ∃ r', Returns (receiveFrame p (.entries t head.device es)) r none r' ∧
      Sent q p t head base fed acc r es { acc with sent := acc.sent + es.length } r' := by
  obtain ⟨ρ', hfeeds, hadv', hbeside⟩ := feeds_ok hT.opens hT.refuse hadv
    (fun e he => of_decide_eq_true (mem_filter.mp (hes e he)).2)
    (fun e he => hT.receivable e (hes e he)) hrise
    (by rw [length_append]; omega)
  obtain ⟨r', hrun, hstreams, halong, hreceived⟩ := receiveFrame_entries_ok hs hfind
    (by rw [ht.received, hT.limits]; exact hcap) hfeeds
  subst hstreams
  exact ⟨r', hrun, hfeeds, hadv', hbeside, halong,
    ⟨by rw [hreceived, ht.received], halong.offeredChains.trans ht.offered, hcap⟩, rfl⟩

theorem acceptedChainEntries_serves (hr : Rises (·.lamport) (σ.log.chainOf d))
    (hpast : pastOwedSuffix σ d start = .ok false) (hserve : serveFrom σ.log d start = .ok (some w))
    (hlimit : limit ≠ 0) :
    ∃ page, acceptedChainEntries σ d start limit = .ok page ∧ page.length ≤ limit ∧
      page.map (·.toVerifiedEntry) = (σ.log.served d w).take limit := by
  refine ⟨_, ?_, length_take_le _ _, served_page hr⟩
  unfold acceptedChainEntries
  rw [if_neg hlimit, hpast]
  simp only [hserve]

theorem pastOwed_of_mem (hs : Sound σ.log d) (he : e ∈ σ.log.chainOf d)
    (hc : start.cursor? = some e.cursor) : pastOwedSuffix σ d start = .ok false := by
  unfold pastOwedSuffix
  rw [hc]
  split
  · rename_i cursor owed tail hcur _ htail
    cases hcur
    have hle := hs.lamport_le_tail htail he
    rw [if_neg fun hboth => absurd hboth.1 (not_lt.mpr hle)]
  · rfl

theorem serveFrom_after_mem (hr : Rises (·.lamport) (log.chainOf d)) (he : e ∈ log.chainOf d) :
    serveFrom log d (.after e.cursor) = .ok (some (.above e.lamport)) := by
  simp only [serveFrom, cursorMatches_of_mem hr he]
  rfl

/-- **A window of a chain is sent**, page by page: all of it, unless the session's bound is reached. -/
theorem sendChain_window (hT : Turning q p t head base)
    (hfind : chains.find? (fun c => c.device = head.device) = some head)
    (hpast : pastOwedSuffix (q.streams t) head.device start = .ok false)
    (hserve : serveFrom (q.streams t).log head.device start = .ok (some w))
    (hs : Serving t later chains r) (ht : Tally q acc r)
    (hadv : Advances t head.device fed base (r.streams t).log)
    (hrise : Rises (·.lamport) (fed ++ (q.streams t).log.served head.device w))
    (hfuel : q.cap - acc.sent < turns)
    (hroom : base.heldCount + fed.length + (q.cap - acc.sent) + 2 < p.bound) :
    ∃ acc' r' es, Returns (sendChain q p t head turns start acc) r acc' r' ∧
      Sent q p t head base fed acc r es acc' r' ∧ acc'.chainsSkipped = acc.chainsSkipped ∧
      (acc'.sent < q.cap → es = (q.streams t).log.served head.device w) := by
  induction turns generalizing start w acc r fed with
  | zero => exact absurd hfuel (Nat.not_lt_zero _)
  | succ turns ih =>
    have hchain := (hT.sound head.device).rises
    unfold sendChain
    by_cases hsent : acc.sent < q.cap
    · have hlimit : min q.limits.entriesPerPage (q.cap - acc.sent) ≠ 0 := by
        have := hT.page
        omega
      obtain ⟨page, hpage, hlen, hmap⟩ := acceptedChainEntries_serves hchain hpast hserve hlimit
      rw [if_pos hsent]
      simp only [hpage]
      cases hlast : page.getLast? with
      | none =>
        -- the page is empty: the window is through
        refine ⟨_, r, [], rfl, .nil hadv ⟨ht.received, ht.offered, ht.cap⟩ rfl, rfl, fun _ => ?_⟩
        rw [getLast?_eq_none_iff.mp hlast] at hmap
        exact ((take_eq_nil_iff.mp hmap.symm).resolve_left hlimit).symm
      | some last =>
        simp only
        rw [if_neg (not_lt.mpr hlen)]
        have hsplit := served_split hchain hmap hlast
        have hmem : ∀ e ∈ page.map (·.toVerifiedEntry),
            e ∈ (q.streams t).log.chainOf head.device := fun e he =>
          mem_of_mem_filter (mem_of_mem_take (hmap ▸ he))
        have hlastmem : last.toVerifiedEntry ∈ (q.streams t).log.chainOf head.device :=
          hmem _ (mem_map_of_mem (mem_of_getLast? hlast))
        have hpos : 0 < page.length := length_pos_of_mem (mem_of_getLast? hlast)
        rw [← hsplit, ← append_assoc] at hrise
        obtain ⟨r₁, hframe, hsent₁⟩ := page_ok hT hs hfind ht hadv hmem
          (hrise.sublist (sublist_append_left _ _)) (by rw [length_map]; omega) hroom
        rw [length_map] at hsent₁
        have hserve' : serveFrom (q.streams t).log head.device (.after last.cursor) =
            .ok (some (.above last.lamport)) := serveFrom_after_mem hchain hlastmem
        obtain ⟨acc', r', more, hrest, hsent', hskip, hall⟩ := ih
          (pastOwed_of_mem (hT.sound head.device) hlastmem rfl) hserve' (hs.along hsent₁.along)
          hsent₁.tally hsent₁.advances hrise
          (by show q.cap - (acc.sent + page.length) < turns; omega)
          (by
            show base.heldCount + (fed ++ page.map (·.toVerifiedEntry)).length +
              (q.cap - (acc.sent + page.length)) + 2 < p.bound
            rw [length_append, length_map]
            omega)
        refine ⟨acc', r', _, returns_bind.mpr ⟨none, r₁, hframe, hrest⟩, hsent₁.trans hsent', hskip,
          fun hlt => ?_⟩
        rw [hall hlt, hsplit]
    · rw [if_neg hsent]
      exact ⟨acc, r, [], rfl, .nil hadv ht rfl, rfl, fun hlt => absurd hlt hsent⟩

/-! ## 3. What becomes of a chain -/

/-- How a chain's turn ends. -/
inductive TurnEnd where
  | complete
  | pending
  | skipped
  | sent
  deriving DecidableEq

/-- **The turn of one chain**: complete, or nothing can be served now, or skipped, or all that was
    asked for is fed. -/
inductive ChainTurn (q : Sender) (p : Receiver) (t : StreamId) (head : ChainHead) (ρ : Streams) :
    TurnEnd → Streams → Prop where
  | complete (h : chainPlan head (chainFrontier (ρ t) head.device) = .complete) :
      ChainTurn q p t head ρ .complete ρ
  /-- the receiver's witness lies above all the sender has -/
  | behind (h : chainPlan head (chainFrontier (ρ t) head.device) = .pending) :
      ChainTurn q p t head ρ .pending ρ
  | diverged (h : chainPlan head (chainFrontier (ρ t) head.device) = .diverged) :
      ChainTurn q p t head ρ .skipped ρ
  | unservable {start : ChainStart} {why : UnservableChainCursor}
      (h : chainPlan head (chainFrontier (ρ t) head.device) = .send start)
      (hs : serveFrom (q.streams t).log head.device start = .error (.unservable why)) :
      ChainTurn q p t head ρ .skipped ρ
  /-- the suffix is owed to the sender itself, or the prefix asked for lies below what it restored -/
  | nothing {start : ChainStart} (h : chainPlan head (chainFrontier (ρ t) head.device) = .send start)
      (hs : pastOwedSuffix (q.streams t) head.device start = .ok true ∨
        serveFrom (q.streams t).log head.device start = .ok none) :
      ChainTurn q p t head ρ .pending ρ
  | sent {start : ChainStart} {w : Window} {ρ' : Streams}
      (h : chainPlan head (chainFrontier (ρ t) head.device) = .send start)
      (hs : serveFrom (q.streams t).log head.device start = .ok (some w))
      (hf : Feeds p t head ρ ((q.streams t).log.served head.device w) ρ') :
      ChainTurn q p t head ρ .sent ρ'

/-- The turns of the chains of a stream, one after the other. -/
inductive Turns (q : Sender) (p : Receiver) (t : StreamId) :
    List ChainHead → Streams → List TurnEnd → Streams → Prop where
  | nil {ρ : Streams} : Turns q p t [] ρ [] ρ
  | cons {head : ChainHead} {heads : List ChainHead} {ρ ρ₁ ρ' : Streams} {e : TurnEnd}
      {ends : List TurnEnd} (h : ChainTurn q p t head ρ e ρ₁) (hrest : Turns q p t heads ρ₁ ends ρ') :
      Turns q p t (head :: heads) ρ (e :: ends) ρ'

/-- The turns of all chains of the streams. -/
inductive StreamTurns (q : Sender) (p : Receiver) :
    List StreamId → Streams → List TurnEnd → Streams → Prop where
  | nil {ρ : Streams} : StreamTurns q p [] ρ [] ρ
  | cons {t : StreamId} {items : List StreamId} {ρ ρ₁ ρ' : Streams} {ends ends' : List TurnEnd}
      (h : Turns q p t (chainHeads (q.streams t)) ρ ends ρ₁)
      (hrest : StreamTurns q p items ρ₁ ends' ρ') : StreamTurns q p (t :: items) ρ (ends ++ ends') ρ'

theorem Turns.append (h : Turns q p t heads ρ ends ρ₁) (h' : Turns q p t heads' ρ₁ ends' ρ') :
    Turns q p t (heads ++ heads') ρ (ends ++ ends') ρ' := by
  induction h with
  | nil => exact h'
  | cons hc _ ih => exact .cons hc (ih h')

/-- What the sender's counts say of the turns' ends. -/
structure Counted (ends : List TurnEnd) (acc acc' : Sending) : Prop where
  skipped : acc'.chainsSkipped = acc.chainsSkipped + ends.count .skipped
  pending : TurnEnd.pending ∈ ends → acc'.streamPending = true

/-! ## 4. The start of a direction -/

/-- **Nothing of the sender's store makes the session fail on the receiver's.** -/
structure Clear (sender receiver : StreamStore) : Prop where
  /-- a witness beyond the sender's tail and as high as the tip it still owes is that tip -/
  tips : ∀ d owed tail w, sender.obligation d = some owed → sender.log.chainTail d = some tail →
    chainFrontier receiver d = .restore w → tail.lamport < w.lamport →
      w.lamport = owed.tip.lamport → w.entryHash = owed.tip.entryHash
  /-- no entry lies too far ahead -/
  clock : ∀ e ∈ sender.log.accepted, e.lamport ≤ receiver.log.clock + maxLamportAdvance
  /-- an entry that may become a root, and cites one the receiver lacks, has no later sibling on hold -/
  roots : ∀ e ∈ sender.log.accepted, receiver.log.entryExists e.entryHash = false →
    MayRoot receiver.log e (sender.log.retainedFloors e.device) → NoLaterSibling receiver.log e

/-- Since the direction came to the stream: `n` entries were sent, the chains `left` are still to
    come. -/
structure Since (t : StreamId) (log₀ log : ChainLog) (n : Nat) (left : DeviceFingerprint → Prop) :
    Prop where
  waiting : Waiting t log
  clock : log₀.clock ≤ log.clock
  known : ∀ hash, log₀.entryExists hash = true → log.entryExists hash = true
  count : log.heldCount ≤ log₀.heldCount + n
  left : ∀ d, left d → Untouched d log₀ log

section Starts

variable {log₀ : ChainLog} {sender receiver : StreamStore}

theorem Since.advances (h : Since t log₀ log n left) (ha : Advances t d es log log') :
    Since t log₀ log' (n + es.length) fun d' => left d' ∧ d' ≠ d where
  waiting := ha.waiting
  clock := h.clock.trans ha.clock
  known hash hk := ha.known hash (h.known hash hk)
  count := by
    have h₁ := h.count
    have h₂ := ha.count
    omega
  left d' hd := (h.left d' hd.1).trans (ha.others d' hd.2)

theorem Since.fewer (h : Since t log₀ log n left) (hl : ∀ d, left' d → left d) :
    Since t log₀ log n left' :=
  ⟨h.waiting, h.clock, h.known, h.count, fun d hd => h.left d (hl d hd)⟩

theorem chainHead_device_floor (hmem : head ∈ chainHeads sender) :
    head.floor = sender.log.retainedFloors head.device := by
  obtain ⟨e, -, rfl⟩ := mem_chainHeads.mp hmem
  rfl

theorem Clear.receivable (h : Clear sender receiver) (hs : Since t receiver.log log n left)
    (hleft : left head.device) (hmem : head ∈ chainHeads sender)
    (he : e ∈ sender.log.chainOf head.device) : Receivable log head.floor e := by
  obtain ⟨hacc, hdev⟩ := mem_filter.mp he
  have hdev : e.device = head.device := of_decide_eq_true hdev
  have hun := hs.left _ hleft
  obtain ⟨stored, -, hstored⟩ := mem_map.mp hacc
  refine ⟨hstored ▸ stored.lamport_lt, (h.clock e hacc).trans (Nat.add_le_add_right hs.clock _),
    fun hnew hmay => ?_⟩
  have hmay₀ : MayRoot receiver.log e (sender.log.retainedFloors e.device) := by
    rw [hdev, ← chainHead_device_floor hmem]
    exact hmay.earlier hs.known fun hw => by rw [hdev] at hw ⊢; rw [← hun.witness]; exact hw
  intro g hg hd hp
  exact h.roots e hacc (new_of_known hs.known hnew) hmay₀ g (hun.held g hg (hd.trans hdev)) hd hp

theorem not_delivered {frontier : FrontierState} (hplan : chainPlan head frontier = .send start) :
    deliveredThrough head start = false := by
  have hplanned := planned head frontier
  rw [hplan] at hplanned
  cases hplanned with
  | beginning | floor | witness => rfl
  | after hlt =>
    refine decide_eq_false ?_
    rintro (hgt | ⟨heq, -⟩) <;> omega

theorem tip_of_obligation (hmem : head ∈ chainHeads sender) {owed : Obligation}
    (ho : sender.obligation head.device = some owed) : head.tip = owed.tip := by
  obtain ⟨e, -, rfl⟩ := mem_chainHeads.mp hmem
  have ho : sender.obligation e.device = some owed := ho
  unfold chainHead ChainHead.tip
  rw [ho]

theorem Clear.past (h : Clear sender receiver) (hsound : ∀ d, Sound sender.log d)
    (hmem : head ∈ chainHeads sender)
    (hplan : chainPlan head (chainFrontier receiver head.device) = .send start) :
    ∃ past, pastOwedSuffix sender head.device start = .ok past := by
  generalize hfr : chainFrontier receiver head.device = frontier at hplan
  -- a cursor as high as an owed tip is that tip
  suffices hsame : ∀ c owed tail, start.cursor? = some c → sender.obligation head.device = some owed →
      sender.log.chainTail head.device = some tail → tail.lamport < c.lamport →
        c.lamport = owed.tip.lamport → c.entryHash = owed.tip.entryHash by
    unfold pastOwedSuffix
    split
    · rename_i c owed tail hc ho ht
      split
      · rename_i hpast
        rw [if_pos]
        · exact ⟨true, rfl⟩
        · by_cases heq : c.lamport = owed.tip.lamport
          · exact .inr (hsame c owed tail hc ho ht hpast.1 heq)
          · exact .inl heq
      · exact ⟨false, rfl⟩
    · exact ⟨false, rfl⟩
  intro c owed tail hc ho ht hlt heq
  have hplanned := planned head frontier
  rw [hplan] at hplanned
  cases hplanned with
  | beginning => cases hc
  | floor _ hf =>
    -- the floor is stored, so it is not beyond the tail
    cases hc
    rw [chainHead_device_floor hmem] at hf
    obtain ⟨z, hz, rfl⟩ := (hsound head.device).floor _ hf
    exact absurd hlt (not_lt.mpr ((hsound head.device).lamport_le_tail ht hz))
  | after hbelow =>
    cases hc
    have htip : head.lamport = owed.tip.lamport :=
      congrArg ChainCursor.lamport (tip_of_obligation hmem ho)
    omega
  | witness =>
    cases hc
    exact h.tips _ owed tail _ ho ht hfr hlt heq

theorem serveFrom_unservable {why : EntriesError} (h : serveFrom log d start = .error why) :
    ∃ u, why = .unservable u := by
  have hmatch : ∀ c why, cursorMatches log d c = .error why → ∃ u, why = .unservable u := by
    intro c why hc
    unfold cursorMatches at hc
    split at hc
    · cases hc
    · split at hc <;> cases hc
      exact ⟨_, rfl⟩
  unfold serveFrom at h
  repeat' split at h
  all_goals cases h
  all_goals first | exact ⟨_, rfl⟩ | exact hmatch _ _ ‹_›

end Starts

/-! ## 5. The turn of a chain, and the turns of a page -/

/-- What both sides meet a stream with, which the receiver has as `σ₀`. -/
structure Meeting (q : Sender) (p : Receiver) (t : StreamId) (σ₀ : StreamStore) : Prop where
  opens : Opens p t
  sound : ∀ d, Sound (q.streams t).log d
  promised : Promised (q.streams t)
  clear : Clear (q.streams t) σ₀
  limits : p.limits = q.limits
  page : 0 < q.limits.entriesPerPage
  room : σ₀.log.heldCount + q.cap + 2 < p.bound

theorem Meeting.turning (h : Meeting q p t σ₀) (hs : Since t σ₀.log (r.streams t).log n left)
    (hleft : left head.device) (hmem : head ∈ chainHeads (q.streams t)) :
    Turning q p t head (r.streams t).log where
  opens := h.opens
  sound := h.sound
  refuse := suffixRefusal_of_head h.sound h.promised hmem
  receivable _ he := h.clear.receivable hs hleft hmem he
  limits := h.limits
  page := h.page

theorem sendChain_empty (hsent : acc.sent < q.cap)
    (hnone : ∀ limit, acceptedChainEntries (q.streams t) head.device start limit = .ok [])
    (hdel : deliveredThrough head start = false) :
    Returns (sendChain q p t head (turns + 1) start acc) r { acc with streamPending := true } r := by
  unfold sendChain
  rw [if_pos hsent]
  simp only [hnone]
  refine returns_pure.mpr ⟨?_, rfl⟩
  rw [hdel, Bool.not_false, Bool.or_true]

theorem sendChain_unservable {why : UnservableChainCursor}
    (hsent : acc.sent < q.cap) (hpage : 0 < q.limits.entriesPerPage)
    (hpast : pastOwedSuffix (q.streams t) head.device start = .ok false)
    (hserve : serveFrom (q.streams t).log head.device start = .error (.unservable why)) :
    Returns (sendChain q p t head (turns + 1) start acc) r
      { acc with chainsSkipped := acc.chainsSkipped + 1 } r := by
  have hlimit : min q.limits.entriesPerPage (q.cap - acc.sent) ≠ 0 := by omega
  unfold sendChain
  rw [if_pos hsent]
  simp only [acceptedChainEntries, if_neg hlimit, hpast, hserve]
  exact rfl

theorem serveChain_ok (h : Meeting q p t σ₀) (hs : Serving t later chains r)
    (hfind : chains.find? (fun c => c.device = head.device) = some head)
    (hmem : head ∈ chainHeads (q.streams t)) (ht : Tally q acc r)
    (hsince : Since t σ₀.log (r.streams t).log acc.sent left) (hleft : left head.device) :
    ∃ acc' r' es, Returns (serveChain q p t head (chainFrontier (r.streams t) head.device) acc)
        r acc' r' ∧
      Sent q p t head (r.streams t).log [] acc r es acc' r' ∧
      (acc'.sent < q.cap →
        ∃ e, ChainTurn q p t head r.streams e r'.streams ∧ Counted [e] acc acc') := by
  have hadv : Advances t head.device [] (r.streams t).log (r.streams t).log := .refl hsince.waiting []
  unfold serveChain
  cases hplan : chainPlan head (chainFrontier (r.streams t) head.device) with
  | complete =>
    exact ⟨acc, r, [], rfl, .nil hadv ht rfl, fun _ => ⟨.complete, .complete hplan, rfl, nofun⟩⟩
  | pending =>
    exact ⟨_, r, [], rfl, .nil hadv ⟨ht.received, ht.offered, ht.cap⟩ rfl,
      fun _ => ⟨.pending, .behind hplan, rfl, fun _ => rfl⟩⟩
  | diverged =>
    exact ⟨_, r, [], rfl, .nil hadv ⟨ht.received, ht.offered, ht.cap⟩ rfl,
      fun _ => ⟨.skipped, .diverged hplan, rfl, nofun⟩⟩
  | send start =>
    simp only
    by_cases hsent : acc.sent < q.cap
    · have hfrontier : chainFrontier (r.streams t) head.device = chainFrontier σ₀ head.device :=
        (hsince.left _ hleft).chainFrontier_eq
      have hdel := not_delivered hplan
      obtain ⟨past, hpast⟩ := h.clear.past h.sound hmem (hfrontier ▸ hplan)
      cases past with
      | true =>
        refine ⟨_, r, [], sendChain_empty hsent (fun limit => ?_) hdel,
          .nil hadv ⟨ht.received, ht.offered, ht.cap⟩ rfl,
          fun _ => ⟨.pending, .nothing hplan (.inl hpast), rfl, fun _ => rfl⟩⟩
        unfold acceptedChainEntries
        rw [hpast]
        split <;> rfl
      | false =>
        cases hserve : serveFrom (q.streams t).log head.device start with
        | error why =>
          obtain ⟨u, rfl⟩ := serveFrom_unservable hserve
          exact ⟨_, r, [], sendChain_unservable hsent h.page hpast hserve,
            .nil hadv ⟨ht.received, ht.offered, ht.cap⟩ rfl,
            fun _ => ⟨.skipped, .unservable hplan hserve, rfl, nofun⟩⟩
        | ok window =>
          cases window with
          | none =>
            refine ⟨_, r, [], sendChain_empty hsent (fun limit => ?_) hdel,
              .nil hadv ⟨ht.received, ht.offered, ht.cap⟩ rfl,
              fun _ => ⟨.pending, .nothing hplan (.inr hserve), rfl, fun _ => rfl⟩⟩
            unfold acceptedChainEntries
            simp only [hpast, hserve]
            split <;> rfl
          | some w =>
            have hfuel : q.cap - acc.sent < q.cap + 1 := by
              omega
            have hroom : (r.streams t).log.heldCount + ([] : List VerifiedEntry).length +
                (q.cap - acc.sent) + 2 < p.bound := by
              have hcount := hsince.count
              have hcap := ht.cap
              have hheld := h.room
              rw [length_nil]
              omega
            obtain ⟨acc', r', es, hrun, hend, hskip, hall⟩ := sendChain_window
              (h.turning hsince hleft hmem) hfind hpast hserve hs ht hadv
              ((h.sound head.device).rises.sublist filter_sublist) hfuel hroom
            refine ⟨acc', r', es, hrun, hend, fun hlt => ⟨.sent, .sent hplan hserve ?_, hskip, nofun⟩⟩
            rw [← hall hlt]
            exact hend.feeds
    · refine ⟨acc, r, [], ?_, .nil hadv ht rfl, fun hlt => absurd hlt hsent⟩
      unfold sendChain
      rw [if_neg hsent]
      exact rfl

/-- What a stretch of a stream leaves: the streams as far as these turns have brought them. -/
structure Stretch (q : Sender) (p : Receiver) (t : StreamId) (σ₀ : StreamStore) (left : DeviceFingerprint → Prop)
    (r : Receiving) (acc' : Sending) (r' : Receiving) : Prop where
  along : r.Alongside r'
  tally : Tally q acc' r'
  since : Since t σ₀.log (r'.streams t).log acc'.sent left
  beside : Beside t r.streams r'.streams
  ingests : Ingests p r.streams r'.streams

theorem Counted.append (h : Counted ends acc acc₁) (h' : Counted ends' acc₁ acc')
    (hgrows : acc₁.streamPending = true → acc'.streamPending = true) :
    Counted (ends ++ ends') acc acc' where
  skipped := by rw [h'.skipped, h.skipped, count_append, Nat.add_assoc]
  pending hmem := (mem_append.mp hmem).elim (fun h₁ => hgrows (h.pending h₁)) h'.pending

/-- **The chains of a page have their turns**, all of them unless the session's bound is reached. -/
theorem sendChains_ok (h : Meeting q p t σ₀) (hs : Serving t later chains r)
    (hfind : ∀ c ∈ heads, chains.find? (fun e => e.device = c.device) = some c)
    (hmem : ∀ c ∈ heads, c ∈ chainHeads (q.streams t))
    (hapart : heads.Pairwise fun a b => a.device < b.device) (ht : Tally q acc r)
    (hsince : Since t σ₀.log (r.streams t).log acc.sent left) (hleft : ∀ c ∈ heads, left c.device)
    (frontier : DeviceFingerprint → FrontierState)
    (hfrontier : ∀ c ∈ heads, frontier c.device = chainFrontier (r.streams t) c.device) :
    ∃ acc' r', Returns (sendChains q p t (heads.map fun c => (c, frontier c.device)) acc) r acc' r' ∧
      Stretch q p t σ₀ (fun d => left d ∧ ∀ c ∈ heads, c.device ≠ d) r acc' r' ∧
      (acc'.sent < q.cap →
        ∃ ends, Turns q p t heads r.streams ends r'.streams ∧ Counted ends acc acc') := by
  induction heads generalizing acc r left with
  | nil =>
    exact ⟨acc, r, rfl,
      ⟨.refl r, ht, hsince.fewer fun d hd => hd.1, .refl t _, .refl⟩, fun _ => ⟨[], .nil, rfl, nofun⟩⟩
  | cons head heads ih =>
    obtain ⟨hlt, hapart⟩ := pairwise_cons.mp hapart
    obtain ⟨acc₁, r₁, es, hone, hend, hturn⟩ := serveChain_ok h hs (hfind head mem_cons_self)
      (hmem head mem_cons_self) ht hsince (hleft head mem_cons_self)
    rw [← hfrontier head mem_cons_self] at hone
    have hsince₁ : Since t σ₀.log (r₁.streams t).log acc₁.sent
        fun d => left d ∧ d ≠ head.device := by
      rw [hend.count]
      exact hsince.advances hend.advances
    have hne : ∀ c ∈ heads, c.device ≠ head.device := fun c hc => (hlt c hc).ne'
    have hfrontier₁ : ∀ c ∈ heads, frontier c.device = chainFrontier (r₁.streams t) c.device := by
      intro c hc
      rw [hfrontier c (mem_cons_of_mem _ hc)]
      exact ((hend.advances.others c.device (hne c hc)).chainFrontier_eq).symm
    obtain ⟨acc', r', hrest, hstretch, hturns⟩ := ih (hs.along hend.along)
      (forall_mem_cons.mp hfind).2
      (forall_mem_cons.mp hmem).2 hapart hend.tally hsince₁
      (fun c hc => ⟨hleft c (mem_cons_of_mem _ hc), hne c hc⟩) hfrontier₁
    by_cases hstop : (∃ start, chainPlan head (frontier head.device) = .send start) ∧
        q.cap ≤ acc₁.sent
    · -- the session has sent all it may
      obtain ⟨⟨start, hplan⟩, hfull⟩ := hstop
      refine ⟨acc₁, r₁, returns_bind.mpr ⟨acc₁, r₁, hone, ?_⟩,
        ⟨hend.along, hend.tally, hsince₁.fewer fun d hd => ?_, hend.beside, hend.feeds.ingests⟩,
        fun hlt => absurd hlt (not_lt.mpr hfull)⟩
      · rw [hplan]
        simp only
        rw [if_pos hfull]
        exact rfl
      · exact ⟨hd.1, (hd.2 head mem_cons_self).symm⟩
    · refine ⟨acc', r', returns_bind.mpr ⟨acc₁, r₁, hone, ?_⟩,
        ⟨hend.along.trans hstretch.along, hstretch.tally, hstretch.since.fewer fun d hd => ?_,
          hend.beside.trans hstretch.beside, hend.feeds.ingests.trans hstretch.ingests⟩,
        fun hlt' => ?_⟩
      · split
        · rename_i start hplan
          rw [if_neg fun hfull => hstop ⟨⟨start, hplan⟩, hfull⟩]
          exact hrest
        · exact hrest
      · exact ⟨⟨hd.1, (hd.2 head mem_cons_self).symm⟩, (forall_mem_cons.mp hd.2).2⟩
      · have hgrows := sendChains_grows hrest
        obtain ⟨ends, hall, hcounted⟩ := hturns hlt'
        obtain ⟨e, hc, hcounted₁⟩ := hturn (hgrows.sent.trans_lt hlt')
        exact ⟨e :: ends, .cons hc hall, hcounted₁.append hcounted hgrows.pending⟩

/-! ## 6. The pages of a stream, and the streams -/

section Pages

variable {afterDevice : Option DeviceFingerprint}

theorem exists_page (hsound : ∀ d, Sound σ.log d) (hn : 0 < n) (hne : headsAfter σ afterDevice ≠ []) :
    ∃ last, ((headsAfter σ afterDevice).take n).getLast? = some last ∧
      (headsAfter σ afterDevice).take n ++ headsAfter σ (some last.device) = headsAfter σ afterDevice := by
  have hlast := getLast?_eq_some_getLast fun hnil => hne ((take_eq_nil_iff.mp hnil).resolve_left hn.ne')
  exact ⟨_, hlast, by rw [headsAfter_drop hsound hlast, take_append_drop]⟩

theorem validChainPage_of_sorted (h : chains.Pairwise fun a b => a.device < b.device) :
    validChainPage chains = true := by
  induction chains with
  | nil => rfl
  | cons a chains ih =>
    obtain ⟨hlt, hrest⟩ := pairwise_cons.mp h
    cases chains with
    | nil => rfl
    | cons b chains =>
      have htail := ih hrest
      unfold validChainPage at htail ⊢
      simp only [tail_cons, zip_cons_cons, all_cons, Bool.and_eq_true, decide_eq_true_eq]
      exact ⟨hlt b mem_cons_self, htail⟩

theorem orderedAfter_page (hne : chains ≠ []) (hsub : chains ⊆ headsAfter σ afterDevice) :
    orderedAfterPrevious afterDevice chains = true := by
  cases chains with
  | nil => exact absurd rfl hne
  | cons a chains => exact (mem_filter.mp (hsub mem_cons_self)).2

theorem sendPages_page {r₀ : Receiving} {frontier : DeviceFingerprint → FrontierState}
    (hpush : q.canPush = true) (hsent : acc.sent < q.cap)
    (hoffered : acc.offeredChains < q.limits.chainsPerSession)
    (hchains : acceptedChainPage (q.streams t) afterDevice
      (q.pageRoom acc) = chains)
    (hlast : chains.getLast? = some last) (hsorted : chains.Pairwise fun a b => a.device < b.device)
    (hinv : Returns (receiveFrame p (.chainInventory t chains)) r
      (some (.chainFrontiers t (chains.map fun c => (c.device, frontier c.device)))) r₀)
    (hturns : Returns (sendChains q p t (chains.map fun c => (c, frontier c.device))
      { acc with offeredChains := acc.offeredChains + chains.length }) r₀ acc₁ r₁) 
    (hdone : Returns (receiveFrame p (.inventoryDone t)) r₁ none r₂)
    (hrest : Returns (if q.cap ≤ acc₁.sent then
        pure { acc₁ with streamPending := true }
      else sendPages q p t turns (some last.device) acc₁) r₂ acc' r') :
    Returns (sendPages q p t (turns + 1) afterDevice acc) r acc' r' := by
  have hlen : chains.length ≤
      q.pageRoom acc :=
    hchains ▸ length_take_le _ _
  have hmatch : frontiersMatch t t chains (chains.map fun c => (c.device, frontier c.device)) = true := by
    refine decide_eq_true ⟨rfl, ?_⟩
    rw [map_map]
    rfl
  unfold sendPages
  rw [if_neg (by rw [hpush]; exact Bool.noConfusion), if_neg (not_le.mpr hsent),
    if_neg (not_le.mpr hoffered)]
  simp only [hchains, hlast]
  rw [if_neg (not_lt.mpr hlen),
    if_neg (by rw [validChainPage_of_sorted hsorted]; exact Bool.noConfusion)]
  refine returns_bind.mpr ⟨_, r₀, hinv, ?_⟩
  simp only [hmatch, Bool.true_eq_false, if_false]
  refine returns_bind.mpr ⟨acc₁, r₁, ?_, returns_bind.mpr ⟨none, r₂, hdone, hrest⟩⟩
  rw [map_map, ← map_prod_left_eq_zip]
  exact hturns

/-- What the pages of these chains leave, with room in the session for `rest` more. -/
structure Paged (q : Sender) (p : Receiver) (t : StreamId) (later : List StreamId) (rest : Nat)
    (heads : List ChainHead) (acc : Sending) (r : Receiving) (acc' : Sending) (r' : Receiving) : Prop where
  listening : Listening (t :: later) r'
  tally : Tally q acc' r'
  beside : Beside t r.streams r'.streams
  ingests : Ingests p r.streams r'.streams
  room : acc'.offeredChains + rest ≤ q.limits.chainsPerSession
  turns : q.canPush = true → acc'.sent < q.cap →
    ∃ ends, Turns q p t heads r.streams ends r'.streams ∧ Counted ends acc acc'

theorem Paged.append (h : Paged q p t later n heads acc r acc₁ r₁)
    (h' : Paged q p t later rest heads' acc₁ r₁ acc' r')
    (hgrows : acc₁.sent ≤ acc'.sent ∧ (acc₁.streamPending = true → acc'.streamPending = true)) :
    Paged q p t later rest (heads ++ heads') acc r acc' r' where
  listening := h'.listening
  tally := h'.tally
  beside := h.beside.trans h'.beside
  ingests := h.ingests.trans h'.ingests
  room := h'.room
  turns hpush hlt := by
    obtain ⟨ends, hends, hcounted⟩ := h.turns hpush (hgrows.1.trans_lt hlt)
    obtain ⟨ends', hends', hcounted'⟩ := h'.turns hpush hlt
    exact ⟨ends ++ ends', hends.append hends', hcounted.append hcounted' hgrows.2⟩

theorem Paged.stopped (hl : Listening (t :: later) r) (ht : Tally q acc r)
    (hroom : acc.offeredChains + rest ≤ q.limits.chainsPerSession)
    (hstop : q.canPush = true → q.cap ≤ acc.sent) (pending : Bool) :
    Paged q p t later rest heads acc r { acc with streamPending := pending } r :=
  ⟨hl, ⟨ht.received, ht.offered, ht.cap⟩, .refl t _, .refl, hroom, fun hpush hlt =>
    absurd hlt (not_lt.mpr (hstop hpush))⟩

variable (turns rest) in
theorem sendPage_ok (h : Meeting q p t σ₀) (hpeer : q.canPush = true → p.peerCanPush = true)
    (hpush : q.canPush = true) (hsent : acc.sent < q.cap) (hl : Listening (t :: later) r)
    (hdev : r.lastDevice = afterDevice) (ht : Tally q acc r)
    (hsince : Since t σ₀.log (r.streams t).log acc.sent left)
    (hleft : ∀ c ∈ headsAfter (q.streams t) afterDevice, left c.device)
    (hchains : acceptedChainPage (q.streams t) afterDevice (q.pageRoom acc) = chains)
    (hlast : chains.getLast? = some last)
    (hroom : acc.offeredChains + chains.length + rest ≤ q.limits.chainsPerSession) :
    ∃ acc₁ r₁, (∀ {acc' r'}, Returns (if q.cap ≤ acc₁.sent then
          pure { acc₁ with streamPending := true }
        else sendPages q p t turns (some last.device) acc₁) r₁ acc' r' →
        Returns (sendPages q p t (turns + 1) afterDevice acc) r acc' r') ∧
      Paged q p t later rest chains acc r acc₁ r₁ ∧ r₁.lastDevice = some last.device ∧
      Since t σ₀.log (r₁.streams t).log acc₁.sent fun d => left d ∧ ∀ c ∈ chains, c.device ≠ d := by
  have hinit : chains <+: headsAfter (q.streams t) afterDevice := hchains ▸ take_prefix _ _
  have hsorted := (headsAfter_sorted h.sound).sublist hinit.sublist
  have hlen : chains.length ≤ q.pageRoom acc := hchains ▸ length_take_le _ _
  have hne : chains ≠ [] := ne_nil_of_mem (mem_of_getLast? hlast)
  have hgrow : 0 < chains.length := length_pos_iff.mpr hne
  have hpage : chains.length ≤ p.limits.chainsPerPage := h.limits ▸ hlen.trans (min_le_left _ _)
  have hsession : r.offeredChains + chains.length ≤ p.limits.chainsPerSession := by
    rw [h.limits, ht.offered]
    omega
  obtain ⟨r₀, hinv, hs₀, hstreams₀, hreceived₀, hoffered₀, hdev₀⟩ := receiveFrame_inventory_ok hl
    (hpeer hpush) hpage hsession (hdev ▸ orderedAfter_page hne hinit.subset)
  rw [hlast, Option.map_some] at hdev₀
  have ht₀ : Tally q { acc with offeredChains := acc.offeredChains + chains.length } r₀ :=
    ⟨hreceived₀.trans ht.received, by rw [hoffered₀, ht.offered], ht.cap⟩
  obtain ⟨acc₁, r₁, hturns, hstretch, hall⟩ := sendChains_ok h hs₀
    (fun c hc => listed_page hsorted (fun c => chainFrontier (r.streams t) c.device) _
      (mem_map_of_mem hc))
    (fun c hc => mem_of_mem_filter (hinit.subset hc)) hsorted ht₀
    (by rw [hstreams₀]; exact hsince) (fun c hc => hleft c (hinit.subset hc))
    (fun d => chainFrontier (r.streams t) d) (fun c _ => by rw [hstreams₀])
  rw [hstreams₀] at hall
  have hs₁ := hs₀.along hstretch.along
  have hoffer₁ : acc₁.offeredChains = acc.offeredChains + chains.length := by
    rw [← hstretch.tally.offered, hstretch.along.offeredChains, ht₀.offered]
  refine ⟨acc₁, { r₁ with inventory := none }, sendPages_page hpush hsent (by omega) hchains hlast
    hsorted hinv hturns (receiveFrame_inventoryDone hs₁), ⟨⟨hs₁.1, rfl⟩,
    ⟨hstretch.tally.received, hstretch.tally.offered, hstretch.tally.cap⟩, hstreams₀ ▸ hstretch.beside,
    hstreams₀ ▸ hstretch.ingests, hoffer₁ ▸ hroom, fun _ hlt => ?_⟩,
    hstretch.along.lastDevice.trans hdev₀, hstretch.since⟩
  obtain ⟨ends, hends, hcounted⟩ := hall hlt
  exact ⟨ends, hends, hcounted.skipped, hcounted.pending⟩

/-- **The pages of a stream end**, and every chain of it has its turn unless the side may not push or the
    session's bound is reached. -/
theorem sendPages_ok (h : Meeting q p t σ₀) (hpeer : q.canPush = true → p.peerCanPush = true)
    (hper : 0 < q.limits.chainsPerPage) (hl : Listening (t :: later) r)
    (hdev : r.lastDevice = afterDevice) (ht : Tally q acc r)
    (hsince : Since t σ₀.log (r.streams t).log acc.sent left)
    (hleft : ∀ c ∈ headsAfter (q.streams t) afterDevice, left c.device)
    (hoffer : acc.offeredChains + (headsAfter (q.streams t) afterDevice).length + rest ≤
      q.limits.chainsPerSession) (hfuel : (headsAfter (q.streams t) afterDevice).length < turns) :
    ∃ acc' r', Returns (sendPages q p t turns afterDevice acc) r acc' r' ∧
      Paged q p t later rest (headsAfter (q.streams t) afterDevice) acc r acc' r' := by
  induction turns generalizing afterDevice acc r left with
  | zero => exact absurd hfuel (Nat.not_lt_zero _)
  | succ turns ih =>
    by_cases hmay : q.canPush = false
    · refine ⟨acc, r, ?_, .stopped hl ht (by omega) (fun hpush => absurd hpush (by simp [hmay])) _⟩
      unfold sendPages
      rw [if_pos hmay]
      exact rfl
    have hpush := Bool.eq_true_of_not_eq_false hmay
    by_cases hsent : q.cap ≤ acc.sent
    · refine ⟨_, r, ?_, .stopped hl ht (by omega) (fun _ => hsent) true⟩
      unfold sendPages
      rw [if_neg hmay, if_pos hsent]
      exact rfl
    by_cases hnone : headsAfter (q.streams t) afterDevice = []
    · -- the stream has no more chains
      have hempty : ∀ limit, acceptedChainPage (q.streams t) afterDevice limit = [] := by
        intro limit
        show (headsAfter (q.streams t) afterDevice).take limit = []
        rw [hnone]
        exact take_nil
      refine ⟨acc, r, ?_, hl, ht, .refl t _, .refl, by omega, fun _ _ => ⟨[], ?_, rfl, fun h => by cases h⟩⟩
      · unfold sendPages
        rw [if_neg hmay, if_neg hsent]
        simp only [hempty, if_true, getLast?_nil]
        split
        · exact rfl
        · exact rfl
      · rw [hnone]
        exact .nil
    have hpos : 0 < (headsAfter (q.streams t) afterDevice).length := length_pos_iff.mpr hnone
    obtain ⟨last, hlast, hsplit⟩ := exists_page (n := q.pageRoom acc) h.sound
      (lt_min hper (by omega)) hnone
    generalize hchains : (headsAfter (q.streams t) afterDevice).take (q.pageRoom acc) = chains
      at hlast hsplit
    have hgrow : 0 < chains.length := length_pos_of_mem (mem_of_getLast? hlast)
    have hsum := congrArg length hsplit
    rw [length_append] at hsum
    obtain ⟨acc₁, r₁, hrun, hpaged, hdev₁, hsince₁⟩ := sendPage_ok turns
      ((headsAfter (q.streams t) (some last.device)).length + rest) h hpeer hpush (not_le.mp hsent)
      hl hdev ht hsince hleft hchains hlast (by omega)
    have hroom := hpaged.room
    by_cases hfull : q.cap ≤ acc₁.sent
    · refine ⟨_, r₁, hrun (by rw [if_pos hfull]; exact rfl), ?_⟩
      rw [← hsplit]
      exact hpaged.append (.stopped hpaged.listening hpaged.tally (by omega) (fun _ => hfull) true)
        ⟨le_rfl, fun _ => rfl⟩
    · -- the devices of the later pages are above those of this one
      have hleft₁ : ∀ c ∈ headsAfter (q.streams t) (some last.device),
          left c.device ∧ ∀ c' ∈ chains, c'.device ≠ c.device := by
        intro c hc
        have hapart : (headsAfter (q.streams t) afterDevice).Pairwise
            fun a b => a.device < b.device := headsAfter_sorted h.sound
        rw [← hsplit] at hapart
        exact ⟨hleft c (hsplit ▸ mem_append_right _ hc),
          fun c' hc' => ((pairwise_append.mp hapart).2.2 c' hc' c hc).ne⟩
      obtain ⟨acc', r', hrest, hpaged'⟩ :=
        ih hpaged.listening hdev₁ hpaged.tally hsince₁ hleft₁ (by omega) (by omega)
      have hgrows := (sendPages_grows h.sound hpaged.listening hrest).1
      refine ⟨acc', r', hrun (by rw [if_neg hfull]; exact hrest), ?_⟩
      rw [← hsplit]
      exact hpaged.append hpaged' ⟨hgrows.sent, hgrows.pending⟩

theorem headsAfter_none (σ : StreamStore) : headsAfter σ none = chainHeads σ :=
  filter_eq_self.mpr fun _ _ => rfl

theorem Aside.since (h : Aside σ₀ σ) (hw : Waiting t σ₀.log) (n : Nat) :
    Since t σ₀.log σ.log n fun _ => True := by
  obtain ⟨⟨elsewhere, rfl⟩, hknown⟩ := h
  exact ⟨hw.grown (.kept rfl rfl rfl) (List.Subset.refl _) (List.Subset.refl _), le_rfl, hknown,
    Nat.le_add_right _ _, fun d _ => ⟨rfl, rfl, rfl, fun _ hg _ => hg⟩⟩

/-- What a stretch of streams comes to, for a side that may push and is not at its bound. -/
def Told (q : Sender) (acc acc' : Sending) (turns : List TurnEnd → Prop) : Prop :=
  q.canPush = true → acc'.sent < q.cap →
    ∃ ends, turns ends ∧ acc'.chainsSkipped = acc.chainsSkipped + ends.count .skipped ∧
      (TurnEnd.pending ∈ ends → acc'.continuationPending = true)

theorem sendStream_ok (h : Meeting q p t σ₀) (hpeer : q.canPush = true → p.peerCanPush = true)
    (hper : 0 < q.limits.chainsPerPage) (hl : Listening (t :: later) r) (hdev : r.lastDevice = none)
    (ht : Tally q acc r) (hw : Waiting t σ₀.log) (haside : Aside σ₀ (r.streams t))
    (hoffer : acc.offeredChains + (chainHeads (q.streams t)).length + rest ≤
      q.limits.chainsPerSession) :
    ∃ acc' r', Returns (sendStream q p t acc) r acc' r' ∧ Listening later r' ∧ r'.lastDevice = none ∧
      Tally q acc' r' ∧ Beside t r.streams r'.streams ∧ Ingests p r.streams r'.streams ∧
      acc'.offeredChains + rest ≤ q.limits.chainsPerSession ∧ acc.sent ≤ acc'.sent ∧
      Told q acc acc' fun ends =>
        Turns q p t (chainHeads (q.streams t)) r.streams ends r'.streams := by
  rw [← headsAfter_none] at hoffer ⊢
  have ht₀ : Tally q { acc with streamPending := (q.streams t).streamPending } r :=
    ⟨ht.received, ht.offered, ht.cap⟩
  have hfuel : (headsAfter (q.streams t) none).length < q.limits.chainsPerSession + 1 := by omega
  obtain ⟨acc₁, r₁, hpages, hl₁, ht₁, hbeside, hingests, hoffer₁, hall⟩ :=
    sendPages_ok h hpeer hper hl hdev ht₀ (haside.since hw _) (fun _ _ => trivial) hoffer hfuel
  have hdone := receiveFrame_streamDone (p := p) hl₁ acc₁.streamPending
  refine ⟨_, _, returns_bind.mpr ⟨acc₁, r₁, hpages, returns_bind.mpr ⟨none, _, hdone,
    rfl⟩⟩, ⟨rfl, hl₁.2⟩, rfl, ⟨ht₁.received, ht₁.offered, ht₁.cap⟩, hbeside,
    hingests, hoffer₁, (sendPages_grows h.sound hl hpages).1.sent, fun hpush hlt => ?_⟩
  obtain ⟨ends, hturns, hcounted⟩ := hall hpush hlt
  refine ⟨ends, hturns, hcounted.skipped, fun hmem => ?_⟩
  show (acc₁.continuationPending || acc₁.streamPending) = true
  rw [hcounted.pending hmem, Bool.or_true]

theorem sendStreams_ok
    (h : ∀ t ∈ items, Meeting q p t (ρ₀ t) ∧ Waiting t (ρ₀ t).log ∧ Aside (ρ₀ t) (r.streams t))
    (hpeer : q.canPush = true → p.peerCanPush = true) (hper : 0 < q.limits.chainsPerPage)
    (hnodup : items.Nodup) (hl : Listening items r) (hdev : r.lastDevice = none) (ht : Tally q acc r)
    (hoffer : acc.offeredChains + (items.map fun t => (chainHeads (q.streams t)).length).sum ≤
      q.limits.chainsPerSession) :
    ∃ acc' r', Returns (sendStreams q p items acc) r acc' r' ∧ Listening [] r' ∧
      Ingests p r.streams r'.streams ∧ acc.sent ≤ acc'.sent ∧ acc.Keeps acc' ∧
      Told q acc acc' fun ends => StreamTurns q p items r.streams ends r'.streams := by
  induction items generalizing acc r with
  | nil =>
    exact ⟨acc, r, rfl, hl, .refl, le_rfl, ⟨le_rfl, id⟩, fun _ _ => ⟨[], .nil, rfl, nofun⟩⟩
  | cons t items ih =>
    obtain ⟨hne, hnodup⟩ := nodup_cons.mp hnodup
    obtain ⟨hmeet, hw, haside⟩ := h t mem_cons_self
    rw [map_cons, sum_cons, ← Nat.add_assoc] at hoffer
    obtain ⟨acc₁, r₁, hone, hl₁, hdev₁, ht₁, hbeside, hingests, hoffer₁, hsent, htold⟩ :=
      sendStream_ok hmeet hpeer hper hl hdev ht hw haside hoffer
    have h₁ : ∀ u ∈ items, Meeting q p u (ρ₀ u) ∧ Waiting u (ρ₀ u).log ∧
        Aside (ρ₀ u) (r₁.streams u) := by
      intro u hu
      obtain ⟨hmeet, hw, haside⟩ := h u (mem_cons_of_mem _ hu)
      exact ⟨hmeet, hw, haside.trans (hbeside u fun heq => hne (heq ▸ hu))⟩
    obtain ⟨acc', r', hrest, hl', hingests', hsent', hkeeps', htold'⟩ :=
      ih h₁ hnodup hl₁ hdev₁ ht₁ hoffer₁
    have hkeeps := sendStream_keeps hmeet.sound hl hone
    refine ⟨acc', r', returns_bind.mpr ⟨acc₁, r₁, hone, hrest⟩, hl', hingests.trans hingests',
      hsent.trans hsent', ⟨hkeeps.skipped.trans hkeeps'.skipped,
        fun hp => hkeeps'.continuation (hkeeps.continuation hp)⟩, fun hpush hlt => ?_⟩
    obtain ⟨ends', hturns', hskip', hpend'⟩ := htold' hpush hlt
    obtain ⟨ends, hturns, hskip, hpend⟩ := htold hpush (hsent'.trans_lt hlt)
    refine ⟨ends ++ ends', .cons hturns hturns', ?_, fun hmem => ?_⟩
    · rw [hskip', hskip, count_append, Nat.add_assoc]
    · exact (mem_append.mp hmem).elim (fun h₁ => hkeeps'.continuation (hpend h₁)) hpend'

end Pages

/-! ## 7. The session -/

/-- One side of a session: its streams, whether it may push, its bound and its account log. -/
structure Party where
  streams : Streams
  canPush : Bool
  bound : Nat
  ctx : StreamId → SyncCtx

/-- A party as the side that sends. -/
def Party.sender (a : Party) (limits : TableSessionLimits) : Sender := ⟨a.streams, a.canPush, limits⟩

/-- The side that reads what `peer` pushes. -/
def Party.receiver (b peer : Party) (limits : TableSessionLimits) : Receiver :=
  ⟨b.bound, b.ctx, peer.canPush, limits⟩

/-- The direction from `a` to `b`; a session is the one from its initiator and then the one back. -/
def direction (limits : TableSessionLimits) (items : List StreamId) (a b : Party) : Session Sending :=
  sendDirection (a.sender limits) (b.receiver a limits) items

/-- A side whose streams are reached from empty, and open. -/
structure Party.Stands (a : Party) (items : List StreamId) : Prop where
  reached : ∀ t ∈ items, ∃ authored,
    StreamReached (a.ctx t).scope (fun _ _ => True) (a.streams t) authored
  scope : ∀ t ∈ items, (a.ctx t).scope.streamId = t
  gates : ∀ t ∈ items, (a.ctx t).gates = .ok ()

/-- The bounds a direction from `a` to `b` keeps within: the chains offered, and the loops of `b`. -/
structure Within (limits : TableSessionLimits) (items : List StreamId) (a b : Party) : Prop where
  chains : (items.map fun t => (chainHeads (a.streams t)).length).sum ≤ limits.chainsPerSession
  loops : ∀ t ∈ items, (b.streams t).log.heldCount + limits.entriesPerSession + 2 < b.bound

/-- **A direction that broke on no chain**: it ends without an error, and unless the bound on its
    entries cut it off, every chain had its turn, those skipped are counted and those that wait are
    marked. -/
def Unbroken (limits : TableSessionLimits) (items : List StreamId) (a b : Party) (sent : Sending)
    (after : Receiving) : Prop :=
  Returns (direction limits items a b) (.start b.streams items) sent after ∧
    (a.canPush = true → sent.sent < limits.entriesPerSession →
      ∃ ends, StreamTurns (a.sender limits) (b.receiver a limits) items b.streams ends after.streams ∧
        sent.chainsSkipped = ends.count .skipped ∧
        (TurnEnd.pending ∈ ends → sent.continuationPending = true))

section Session

variable {limits : TableSessionLimits} {items : List StreamId} {a b : Party}
  (ha : a.Stands items) (hb : b.Stands items) (hnodup : items.Nodup)
  (hper : 0 < limits.chainsPerPage) (hpage : 0 < limits.entriesPerPage)
  (hwithin : Within limits items a b) (hclear : ∀ t ∈ items, Clear (a.streams t) (b.streams t))

include ha hb hnodup hper hpage hwithin hclear

theorem direction_unbroken :
    ∃ sent after, Unbroken limits items a b sent after ∧
      Ingests (b.receiver a limits) b.streams after.streams := by
  have hmeet : ∀ t ∈ items, Meeting (a.sender limits) (b.receiver a limits) t (b.streams t) ∧
      Waiting t (b.streams t).log ∧ Aside (b.streams t) (b.streams t) := by
    intro t ht
    obtain ⟨_, hreach⟩ := ha.reached t ht
    obtain ⟨_, hreach'⟩ := hb.reached t ht
    have hw := hreach'.waiting
    rw [hb.scope t ht] at hw
    exact ⟨⟨⟨hb.scope t ht, hb.gates t ht⟩, hreach.dated.1, hreach.promised, hclear t ht, rfl, hpage,
      hwithin.loops t ht⟩, hw, .refl _⟩
  have hstart : Tally (a.sender limits) .start (.start b.streams items) :=
    ⟨rfl, rfl, Nat.zero_le _⟩
  obtain ⟨sent, r, hrun, hl, hingests, -, -, htold⟩ :=
    sendStreams_ok (r := .start b.streams items) hmeet id hper hnodup ⟨rfl, rfl⟩ rfl hstart
      ((Nat.zero_add _).symm ▸ hwithin.chains)
  refine ⟨sent, r, ⟨returns_bind.mpr ⟨sent, r, hrun, returns_bind.mpr
    ⟨none, r, receiveFrame_done hl.1, rfl⟩⟩, fun hpush hlt => ?_⟩, hingests⟩
  obtain ⟨ends, hturns, hskip, hpend⟩ := htold hpush hlt
  exact ⟨ends, hturns, hskip.trans (Nat.zero_add _), hpend⟩

/-- **No chain breaks a session.** The first direction ends without an error and takes the turn of every
    chain, and so does the second, if it starts clear as well. -/
theorem table_session_unbroken :
    ∃ sent after, Unbroken limits items a b sent after ∧
      (Within limits items { b with streams := after.streams } a →
        (∀ t ∈ items, Clear (after.streams t) (a.streams t)) →
          ∃ sent' after', Unbroken limits items { b with streams := after.streams } a sent' after') := by
  obtain ⟨sent, after, hunbroken, hingests⟩ :=
    direction_unbroken ha hb hnodup hper hpage hwithin hclear
  refine ⟨sent, after, hunbroken, fun hwithin' hclear' => ?_⟩
  have hb' : Party.Stands { b with streams := after.streams } items := by
    refine ⟨fun t ht => ?_, hb.scope, hb.gates⟩
    obtain ⟨authored, hreach⟩ := hb.reached t ht
    exact ⟨authored, hingests.reached hreach⟩
  obtain ⟨sent', after', hunbroken', -⟩ :=
    direction_unbroken hb' ha hnodup hper hpage hwithin' hclear'
  exact ⟨sent', after', hunbroken'⟩

end Session

/-! ### A fresh peer, and a tip that conflicts with what is owed -/

theorem clear_empty {sender : StreamStore}
    (h : ∀ e ∈ sender.log.accepted, e.lamport ≤ maxLamportAdvance) : Clear sender .empty where
  tips := nofun
  clock e he := (h e he).trans (Nat.le_add_left _ _)
  roots := fun _ _ _ _ _ hg => nomatch hg

/-- A side with one stream, after these operations on it. -/
def noteParty (ops : List StreamOp) : Party :=
  ⟨onStream (((runStream noteScope (fun _ _ => true) .empty [] ops).map (·.1)).getD .empty), true,
    1000010, fun _ => noteCtx⟩

theorem stands_noteParty {ops : List StreamOp}
    (h : (runStream noteScope (fun _ _ => true) .empty [] ops).isSome) :
    (noteParty ops).Stands [0] := by
  refine ⟨fun t ht => ?_, fun t ht => ?_, fun t _ => rfl⟩
  · obtain rfl := mem_singleton.mp ht
    obtain ⟨r, hr⟩ := Option.isSome_iff_exists.mp h
    have hreached : StreamReached noteScope (fun _ _ => True) r.1 r.2 :=
      StreamReached.start.run (fun _ _ _ => trivial) hr
    have hstore : (noteParty ops).streams 0 = r.1 := by
      show ((runStream noteScope (fun _ _ => true) .empty [] ops).map (·.1)).getD .empty = r.1
      rw [hr]
      rfl
    rw [hstore]
    exact ⟨r.2, hreached⟩
  · obtain rfl := mem_singleton.mp ht
    rfl

theorem within_noteParty {a b : List StreamOp}
    (hchains : (chainHeads ((noteParty a).streams 0)).length ≤ 1)
    (hheld : ((noteParty b).streams 0).log.heldCount = 0) :
    Within .default [0] (noteParty a) (noteParty b) := by
  refine ⟨?_, fun t ht => ?_⟩
  · rw [map_singleton, sum_singleton]
    exact hchains.trans (by decide)
  · obtain rfl := mem_singleton.mp ht
    rw [hheld]
    show 0 + 1000000 + 2 < 1000010
    decide

/-- The whole chain to a fresh store. -/
theorem table_session_unbroken_fresh :
    ∃ sent after, Unbroken .default [0] (noteParty fullRun) (noteParty []) sent after := by
  have hclear : ∀ t ∈ [(0 : StreamId)],
      Clear ((noteParty fullRun).streams t) ((noteParty []).streams t) := by
    intro t ht
    obtain rfl := mem_singleton.mp ht
    exact clear_empty (by decide +kernel)
  have hwithin : Within .default [0] (noteParty fullRun) (noteParty []) :=
    within_noteParty (by decide +kernel) (by decide +kernel)
  obtain ⟨sent, after, hunbroken, -⟩ := table_session_unbroken (stands_noteParty (by decide +kernel))
    (stands_noteParty (by decide +kernel)) (by decide) (by decide) (by decide) hwithin hclear
  exact ⟨sent, after, hunbroken⟩

/-- The floor at 5, another entry at 6 than the promised one, and a purge. -/
def otherTipRun : List StreamOp :=
  [receiveNote (noteUpsert 105 5 (some 104) "a") (some ⟨5, 105⟩) (some ⟨5, 105⟩),
    receiveNote (noteUpsert 206 6 (some 105) "c") none none, .purge]

/-- The witness of the purged side conflicts with the tip the other one is owed: the session fails. -/
theorem owed_tip_conflict_breaks_session :
    (noteParty [adoptNote]).Stands [0] ∧ (noteParty otherTipRun).Stands [0] ∧
      Within .default [0] (noteParty [adoptNote]) (noteParty otherTipRun) ∧
      direction .default [0] (noteParty [adoptNote]) (noteParty otherTipRun)
          (.start (noteParty otherTipRun).streams [0]) =
        some (.error "table-sync requested cursor conflicts with the promised suffix tip") :=
  ⟨stands_noteParty (by decide +kernel), stands_noteParty (by decide +kernel),
    within_noteParty (by decide +kernel) (by decide +kernel),
    eq_error_of_failure (by decide +kernel)⟩

end RagRat.TableSync
