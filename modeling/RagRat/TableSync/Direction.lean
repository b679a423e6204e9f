/-
  File:      RagRat/TableSync/Direction.lean
  Subject:   WHAT A WHOLE DIRECTION DELIVERS. The turn of an honest chain (`serveChain_own`) stands
             among the turns of other chains, on other pages and on other streams; none of them
             touches what the receiver holds of it.

  * `serveChain_other` .. `sendStreams_other` -- what is sent of other chains leaves the chain alone;
  * `sendChains_own` .. `sendStreams_own` -- the chain's turn comes, in its page and its stream;
  * `session_catches_up` -- the receiver's tail is at or above the head offered.
-/
import RagRat.TableSync.CatchUp
import RagRat.TableSync.Authorship

namespace RagRat.TableSync

open List
open Lib.Ascending
open Lib.Fallible

variable {c head last : ChainHead} {later items : List StreamId} {chains : List ChainHead}
  {s t : StreamId} {d : DeviceFingerprint} {chain : List VerifiedEntry} {ρ : Streams}
  {σ σ' : StreamStore} {q : Sender} {p : Receiver} {r r' r₀ r₁ r₂ r₃ : Receiving}
  {acc acc' acc₁ : Sending} {frontier : FrontierState} {turns n : Nat}
  {afterDevice : Option DeviceFingerprint}

/-! ## 1. The heads a store offers -/

theorem entries_rise (h : ∀ d, Sound σ.log d) :
    σ.log.entries.Pairwise fun a b => a.device = b.device → a.lamport < b.lamport := by
  refine pairwise_iff_forall_sublist.mpr fun {a b} hsub hdev => ?_
  have hrises := (h b.device).rises
  unfold ChainLog.chainOf ChainLog.accepted at hrises
  have hpair : [a.toVerifiedEntry, b.toVerifiedEntry].Sublist
      ((σ.log.entries.map (·.toVerifiedEntry)).filter fun e => e.device = b.device) := by
    have hmap := (hsub.map (·.toVerifiedEntry)).filter fun e => decide (e.device = b.device)
    simpa [hdev] using hmap
  exact pairwise_iff_forall_sublist.mp hrises hpair

/-- The entries that are highest of their device. -/
def StreamStore.highest (σ : StreamStore) : List StoredEntry :=
  σ.log.entries.filter fun e =>
    ¬ ∃ newer ∈ σ.log.entries, newer.device = e.device ∧ e.lamport < newer.lamport

theorem highest_apart (h : ∀ d, Sound σ.log d) :
    σ.highest.Pairwise fun a b => a.device ≠ b.device := by
  unfold StreamStore.highest
  rw [pairwise_filter]
  refine ((entries_rise h).and (pairwise_of_forall_mem_list
    (r := fun _ b => b ∈ σ.log.entries) fun _ _ b hb => hb)).imp ?_
  rintro a b ⟨hlt, hb⟩ hha - hdev
  simp only [decide_eq_true_eq, not_exists, not_and] at hha
  exact hha b hb hdev.symm (hlt hdev)

theorem mem_chainHeads : head ∈ chainHeads σ ↔ ∃ e ∈ σ.highest, chainHead σ e = head := by
  unfold chainHeads
  rw [mem_map]
  constructor
  · rintro ⟨e, he, rfl⟩
    exact ⟨e, (mem_insertionSort _).mp he, rfl⟩
  · rintro ⟨e, he, rfl⟩
    exact ⟨e, (mem_insertionSort _).mpr he, rfl⟩

theorem chainHeads_sorted (h : ∀ d, Sound σ.log d) :
    (chainHeads σ).Pairwise fun a b => a.device < b.device := by
  unfold chainHeads
  rw [pairwise_map]
  have hsorted := pairwise_insertionSort (fun a b : StoredEntry => a.device ≤ b.device) σ.highest
  have hapart : (σ.highest.insertionSort fun a b => a.device ≤ b.device).Pairwise
      fun a b => a.device ≠ b.device :=
    ((perm_insertionSort _ _).pairwise_iff fun hne => hne.symm).mpr (highest_apart h)
  exact (hsorted.and hapart).imp fun ⟨hle, hne⟩ => lt_of_le_of_ne hle hne

theorem offers_of_mem (h : ∀ d, Sound σ.log d) (hsettled : σ.streamPending = false)
    (hmem : head ∈ chainHeads σ) : Offers σ head.device head := by
  obtain ⟨e, he, rfl⟩ := mem_chainHeads.mp hmem
  have hnone : σ.obligation e.device = none := by
    have hnil : σ.coverage = [] := by simpa [StreamStore.streamPending] using hsettled
    unfold StreamStore.obligation
    rw [hnil]
    rfl
  have htip : chainHead σ e = ⟨e.device, e.lamport, e.entryHash, σ.log.retainedFloors e.device⟩ := by
    unfold chainHead
    rw [hnone]
    rfl
  rw [htip]
  refine ⟨rfl, ?_, rfl⟩
  obtain ⟨hentry, hhigh⟩ := mem_filter.mp he
  simp only [decide_eq_true_eq, not_exists, not_and] at hhigh
  have hrises := (h e.device).rises
  have hown : e.toVerifiedEntry ∈ σ.log.chainOf e.device :=
    mem_filter.mpr ⟨mem_map_of_mem hentry, decide_eq_true rfl⟩
  obtain ⟨z, hz⟩ : ∃ z, (σ.log.chainOf e.device).getLast? = some z :=
    ⟨_, getLast?_eq_some_getLast (ne_nil_of_mem hown)⟩
  -- the last entry of the chain is not newer than the highest one
  obtain ⟨hzacc, hzdev⟩ := mem_filter.mp (mem_of_getLast? hz)
  obtain ⟨y, hy, rfl⟩ := mem_map.mp hzacc
  have hle := hrises.key_le_last hz hown
  have heq : e.lamport = y.lamport :=
    le_antisymm hle (not_lt.mp (hhigh y hy (of_decide_eq_true hzdev)))
  have hsame := hrises.eq_of_key hown (mem_of_getLast? hz) heq
  rw [chainTail_eq hrises, hz, ← hsame]
  rfl

/-! ## 2. What the turns, the pages and the streams come to -/

section Runs

variable {pairs : List (ChainHead × FrontierState)}

theorem sendChains_cons (hrun : Returns (sendChains q p t ((c, frontier) :: pairs) acc) r acc' r') :
    ∃ acc₁ r₁, Returns (serveChain q p t c frontier acc) r acc₁ r₁ ∧
      (q.cap ≤ acc₁.sent ∧ acc' = acc₁ ∧ r' = r₁ ∨
        Returns (sendChains q p t pairs acc₁) r₁ acc' r') := by
  obtain ⟨acc₁, r₁, hone, hrest⟩ := returns_bind.mp hrun
  refine ⟨acc₁, r₁, hone, ?_⟩
  split at hrest
  · rcases returns_ite.mp hrest with ⟨hfull, hrest⟩ | ⟨-, hrest⟩
    · obtain ⟨rfl, rfl⟩ := returns_pure.mp hrest
      exact .inl ⟨hfull, rfl, rfl⟩
    · exact .inr hrest
  · exact .inr hrest

theorem sendChains_grows (hrun : Returns (sendChains q p t pairs acc) r acc' r') : acc.Grows acc' := by
  induction pairs generalizing acc r with
  | nil =>
    obtain ⟨rfl, -⟩ := returns_pure.mp hrun
    exact .refl _
  | cons pair pairs ih =>
    obtain ⟨acc₁, r₁, hone, ⟨-, rfl, -⟩ | hrest⟩ := sendChains_cons hrun
    · exact serveChain_grows hone
    · exact (serveChain_grows hone).trans (ih hrest)

/-- Every chain of the page is the one its device is found by. -/
def Listed (chains : List ChainHead) (pairs : List (ChainHead × FrontierState)) : Prop :=
  ∀ pair ∈ pairs, chains.find? (fun e => e.device = pair.1.device) = some pair.1

/-- The heads that come after a device. -/
def headsAfter (σ : StreamStore) (afterDevice : Option DeviceFingerprint) : List ChainHead :=
  (chainHeads σ).filter fun c => afterDevice.all (· < c.device)

theorem headsAfter_sorted (h : ∀ d, Sound σ.log d) :
    (headsAfter σ afterDevice).Pairwise fun a b => a.device < b.device :=
  (chainHeads_sorted h).sublist filter_sublist

theorem headsAfter_drop (hsound : ∀ d, Sound σ.log d)
    (hlast : ((headsAfter σ afterDevice).take n).getLast? = some last) :
    headsAfter σ (some last.device) = (headsAfter σ afterDevice).drop n := by
  have hrises : Rises (fun c : ChainHead => c.device.val) (headsAfter σ afterDevice) :=
    headsAfter_sorted hsound
  have hmem : last ∈ headsAfter σ afterDevice := mem_of_mem_take (mem_of_getLast? hlast)
  have hfilter : headsAfter σ (some last.device) =
      (headsAfter σ afterDevice).filter fun c => last.device.val < c.device.val := by
    unfold headsAfter
    rw [filter_filter]
    refine filter_congr fun c _ => ?_
    by_cases hlt : last.device < c.device
    · have hafter : afterDevice.all (· < c.device) = true := by
        cases afterDevice with
        | none => rfl
        | some x =>
          have hx : x < last.device := of_decide_eq_true (mem_filter.mp hmem).2
          exact decide_eq_true (hx.trans hlt)
      rw [hafter]
      simp [hlt]
    · simp [hlt]
  rw [hfilter]
  exact hrises.filter_above_take hlast

theorem listed_page (hsorted : chains.Pairwise fun a b => a.device < b.device)
    (f : ChainHead → FrontierState) : Listed chains (chains.map fun c => (c, f c)) := by
  intro pair hpair
  obtain ⟨c, hc, rfl⟩ := mem_map.mp hpair
  show chains.find? (fun e => e.device = c.device) = some c
  induction chains with
  | nil => cases hc
  | cons e chains ih =>
    obtain ⟨hlt, hsorted⟩ := pairwise_cons.mp hsorted
    rcases mem_cons.mp hc with rfl | hc
    · exact find?_cons_of_pos (decide_eq_true rfl)
    · rw [find?_cons_of_neg (by simpa using (hlt c hc).ne)]
      exact ih hsorted hc (mem_map_of_mem hc)

/-- One page of a stream: the inventory, the turns of its chains, and the rest of the stream. -/
structure Page (q : Sender) (p : Receiver) (t : StreamId) (later : List StreamId)
    (afterDevice : Option DeviceFingerprint) (acc acc₁ : Sending) (r r₁ : Receiving)
    (chains : List ChainHead) (last : ChainHead) : Prop where
  heads : chains ++ headsAfter (q.streams t) (some last.device) = headsAfter (q.streams t) afterDevice
  turns : ∃ r₀ r₂, r₀.streams = r.streams ∧ Serving t later chains r₀ ∧
    Returns (sendChains q p t
      (chains.map fun c => (c, chainFrontier (r.streams t) c.device))
      { acc with offeredChains := acc.offeredChains + chains.length }) r₀ acc₁ r₂ ∧
    r₁.streams = r₂.streams
  listening : Listening (t :: later) r₁

theorem Page.grows (h : Page q p t later afterDevice acc acc₁ r r₁ chains last) : acc.Grows acc₁ := by
  obtain ⟨r₀, r₂, -, -, hturns, -⟩ := h.turns
  obtain ⟨hsent, hskip, hpend, hcont⟩ := sendChains_grows hturns
  exact ⟨hsent, hskip, hpend, hcont⟩

/-- Over the streams, what is pending stays so and what is skipped stays counted. -/
structure Sending.Keeps (acc acc' : Sending) : Prop where
  skipped : acc.chainsSkipped ≤ acc'.chainsSkipped
  continuation : acc.continuationPending = true → acc'.continuationPending = true

variable (hsound : ∀ d, Sound (q.streams t).log d)

include hsound

theorem Page.sorted (h : Page q p t later afterDevice acc acc₁ r r₁ chains last) :
    (chains ++ headsAfter (q.streams t) (some last.device)).Pairwise fun a b => a.device < b.device :=
  h.heads ▸ headsAfter_sorted hsound

theorem serveChain_feeds (hs : Serving t later chains r)
    (hfind : chains.find? (fun e => e.device = c.device) = some c)
    (hrun : Returns (serveChain q p t c frontier acc) r acc' r') :
    ∃ es, Feeds p t c r.streams es r'.streams ∧ (∀ e ∈ es, e ∈ (q.streams t).log.accepted) ∧
      Serving t later chains r' := by
  unfold serveChain at hrun
  split at hrun
  · obtain ⟨-, rfl⟩ := returns_pure.mp hrun
    exact ⟨[], .nil, nofun, hs⟩
  · obtain ⟨-, rfl⟩ := returns_pure.mp hrun
    exact ⟨[], .nil, nofun, hs⟩
  · obtain ⟨-, rfl⟩ := returns_pure.mp hrun
    exact ⟨[], .nil, nofun, hs⟩
  · obtain ⟨es, hfeeds, hs', hserved, -⟩ := sendChain_feeds (hsound c.device).rises hs hfind hrun
    refine ⟨es, hfeeds, ?_, hs'⟩
    rcases hserved with rfl | ⟨w, -, hinit⟩
    · nofun
    · intro e he
      exact mem_of_mem_filter (mem_of_mem_filter (hinit.subset he))

theorem sendChains_serving (hs : Serving t later chains r)
    (hfind : Listed chains pairs) (hrun : Returns (sendChains q p t pairs acc) r acc' r') :
    Serving t later chains r' := by
  induction pairs generalizing acc r with
  | nil =>
    obtain ⟨-, rfl⟩ := returns_pure.mp hrun
    exact hs
  | cons pair pairs ih =>
    obtain ⟨acc₁, r₁, hone, hrest⟩ := sendChains_cons hrun
    obtain ⟨es, -, -, hs₁⟩ := serveChain_feeds hsound hs (hfind pair mem_cons_self) hone
    rcases hrest with ⟨-, -, rfl⟩ | hrest
    · exact hs₁
    · exact ih hs₁ (forall_mem_cons.mp hfind).2 hrest

/-- **What the pages of a stream come to**: nothing more is sent, or a page and the rest. -/
theorem sendPages_cases (hl : Listening (t :: later) r)
    (hrun : Returns (sendPages q p t (turns + 1) afterDevice acc) r acc' r') :
    (r' = r ∧ acc.Grows acc' ∧
        (acc'.Clean → q.canPush = true → 0 < q.limits.chainsPerPage →
          headsAfter (q.streams t) afterDevice = [])) ∨
      ∃ chains last acc₁ r₁, Page q p t later afterDevice acc acc₁ r r₁ chains last ∧
        (r' = r₁ ∧ acc' = { acc₁ with streamPending := true } ∨
          acc₁.sent < q.cap ∧
          Returns (sendPages q p t turns (some last.device) acc₁) r₁ acc' r') := by
  unfold sendPages at hrun
  rcases returns_ite.mp hrun with ⟨hno, hrun⟩ | ⟨-, hrun⟩
  · obtain ⟨rfl, rfl⟩ := returns_pure.mp hrun
    exact .inl ⟨rfl, .refl _, fun _ hpush => absurd hpush (by rw [hno]; exact Bool.noConfusion)⟩
  rcases returns_ite.mp hrun with ⟨-, hrun⟩ | ⟨-, hrun⟩
  · obtain ⟨rfl, rfl⟩ := returns_pure.mp hrun
    exact .inl ⟨rfl, ⟨le_rfl, le_rfl, fun _ => rfl, rfl⟩, fun hc => absurd hc.1 Bool.noConfusion⟩
  rcases returns_ite.mp hrun with ⟨-, hrun⟩ | ⟨hoffered, hrun⟩
  · -- the session has offered all the chains it may: the stream has to be done
    rcases returns_ite.mp hrun with ⟨hnil, hrun⟩ | ⟨-, hrun⟩
    · obtain ⟨rfl, rfl⟩ := returns_pure.mp hrun
      exact .inl ⟨rfl, .refl _, fun _ _ _ => (take_eq_nil_iff.mp hnil).resolve_left one_ne_zero⟩
    · exact absurd hrun not_returns_throw
  simp only at hrun
  split at hrun
  · rename_i hnone
    obtain ⟨rfl, rfl⟩ := returns_pure.mp hrun
    refine .inl ⟨rfl, .refl _, fun _ _ hpage => ?_⟩
    refine (take_eq_nil_iff.mp (getLast?_eq_none_iff.mp hnone)).resolve_left ?_
    omega
  rename_i last hlast
  obtain ⟨-, hrun⟩ := returns_guard.mp hrun
  obtain ⟨-, hrun⟩ := returns_guard.mp hrun
  obtain ⟨answer, r₀, hinv, hrun⟩ := returns_bind.mp hrun
  obtain ⟨rfl, hstreams, hs₀⟩ := receiveFrame_inventory hl.1 hl.2 hinv
  simp only at hrun
  obtain ⟨-, hrun⟩ := returns_guard.mp hrun
  obtain ⟨acc₁, r₂, hturns, hrun⟩ := returns_bind.mp hrun
  rw [map_map, ← map_prod_left_eq_zip] at hturns
  have hheads : acceptedChainPage (q.streams t) afterDevice
      (q.pageRoom acc) ++
      headsAfter (q.streams t) (some last.device) = headsAfter (q.streams t) afterDevice :=
    (headsAfter_drop hsound hlast).symm ▸ take_append_drop _ _
  have hsorted := (headsAfter_sorted hsound).sublist (hheads ▸ sublist_append_left _ _)
  have hs₂ := sendChains_serving hsound hs₀ (listed_page hsorted _) hturns
  obtain ⟨answer', r₃, hdone, hrun⟩ := returns_bind.mp hrun
  obtain ⟨-, rfl⟩ := (receiveFrame_inventoryDone hs₂).unique hdone
  refine .inr ⟨_, last, acc₁, { r₂ with inventory := none },
    ⟨hheads, ⟨r₀, r₂, hstreams, hs₀, hturns, rfl⟩, hs₂.1, rfl⟩, ?_⟩
  rcases returns_ite.mp hrun with ⟨-, hrun⟩ | ⟨hlt, hrun⟩
  · obtain ⟨rfl, rfl⟩ := returns_pure.mp hrun
    exact .inl ⟨rfl, rfl⟩
  · exact .inr ⟨not_le.mp hlt, hrun⟩

theorem sendPages_grows (hl : Listening (t :: later) r)
    (hrun : Returns (sendPages q p t turns afterDevice acc) r acc' r') :
    acc.Grows acc' ∧ Listening (t :: later) r' := by
  induction turns generalizing afterDevice acc r with
  | zero => exact absurd hrun not_returns_outOfBound
  | succ turns ih =>
    rcases sendPages_cases hsound hl hrun with ⟨rfl, hgrows, -⟩ | ⟨chains, last, acc₁, r₁, hpage, hrest⟩
    · exact ⟨hgrows, hl⟩
    · rcases hrest with ⟨rfl, rfl⟩ | ⟨-, hrest⟩
      · exact ⟨hpage.grows.trans ⟨le_rfl, le_rfl, fun _ => rfl, rfl⟩, hpage.listening⟩
      · obtain ⟨hgrows, hl'⟩ := ih hpage.listening hrest
        exact ⟨hpage.grows.trans hgrows, hl'⟩

theorem sendStream_cases (hl : Listening (t :: later) r)
    (hrun : Returns (sendStream q p t acc) r acc' r') :
    ∃ acc₁ r₁, Returns (sendPages q p t (q.limits.chainsPerSession + 1) none
        { acc with streamPending := (q.streams t).streamPending }) r acc₁ r₁ ∧
      r'.streams = r₁.streams ∧ Listening later r' ∧
      acc' = { acc₁ with continuationPending := acc₁.continuationPending || acc₁.streamPending } := by
  obtain ⟨acc₁, r₁, hpages, hrun⟩ := returns_bind.mp hrun
  obtain ⟨answer, r₂, hdone, hrun⟩ := returns_bind.mp hrun
  obtain ⟨rfl, rfl⟩ := returns_pure.mp hrun
  have hl₁ := (sendPages_grows hsound hl hpages).2
  obtain ⟨-, rfl⟩ := (receiveFrame_streamDone hl₁ _).unique hdone
  exact ⟨acc₁, r₁, hpages, rfl, ⟨rfl, hl₁.2⟩, rfl⟩

theorem sendStream_keeps (hl : Listening (t :: later) r)
    (hrun : Returns (sendStream q p t acc) r acc' r') : acc.Keeps acc' := by
  obtain ⟨acc₁, r₁, hpages, -, -, rfl⟩ := sendStream_cases hsound hl hrun
  have hgrows := (sendPages_grows hsound hl hpages).1
  refine ⟨hgrows.skipped, fun hp => ?_⟩
  show (acc₁.continuationPending || acc₁.streamPending) = true
  rw [hgrows.continuation]
  exact Bool.or_eq_true_iff.mpr (.inl hp)

omit hsound in
theorem sendStreams_keeps (hsound : ∀ t d, Sound (q.streams t).log d) (hl : Listening items r)
    (hrun : Returns (sendStreams q p items acc) r acc' r') : acc.Keeps acc' ∧ Listening [] r' := by
  induction items generalizing acc r with
  | nil =>
    obtain ⟨rfl, rfl⟩ := returns_pure.mp hrun
    exact ⟨⟨le_rfl, id⟩, hl⟩
  | cons t items ih =>
    obtain ⟨acc₁, r₁, hone, hrest⟩ := returns_bind.mp hrun
    have hkeeps := sendStream_keeps (hsound t) hl hone
    obtain ⟨-, -, -, -, hl₁, -⟩ := sendStream_cases (hsound t) hl hone
    obtain ⟨hkeeps', hl'⟩ := ih hl₁ hrest
    exact ⟨⟨hkeeps.skipped.trans hkeeps'.skipped,
      fun hp => hkeeps'.continuation (hkeeps.continuation hp)⟩, hl'⟩

end Runs

/-! ## 3. The turns of other chains -/

/-- What is known of the honest chain at the sender and of the receiver's account log. -/
structure Parties (q : Sender) (p : Receiver) (s : StreamId) (d : DeviceFingerprint)
    (chain : List VerifiedEntry) : Prop where
  honest : HonestChain s d chain
  admits : Admits p s d
  sender : Upholds d chain (q.streams s).log
  sound : ∀ t d, Sound (q.streams t).log d
  apart : ∀ t, t ≠ s → Apart chain (q.streams t).log

section Direction

variable {pairs : List (ChainHead × FrontierState)}

/-- Nothing of the chain moves at the receiver. -/
structure Leaves (s : StreamId) (d : DeviceFingerprint) (chain : List VerifiedEntry)
    (r r' : Receiving) : Prop where
  guarded : Guarded s d chain r'.streams
  untouched : Untouched d (r.streams s).log (r'.streams s).log

theorem Leaves.refl (hg : Guarded s d chain r.streams) : Leaves s d chain r r :=
  ⟨hg, .refl _⟩

theorem Leaves.trans (h : Leaves s d chain r₁ r₂) (h' : Leaves s d chain r₂ r₃) :
    Leaves s d chain r₁ r₃ :=
  ⟨h'.guarded, h.untouched.trans h'.untouched⟩

theorem Leaves.of_streams_eq (hg : Guarded s d chain r.streams) (heq : r'.streams = r.streams) :
    Leaves s d chain r r' := by
  refine ⟨by rw [heq]; exact hg, ?_⟩
  rw [heq]
  exact .refl _

theorem Untouched.tail {log log' : ChainLog} (h : Untouched d log log') :
    log'.chainTail d = log.chainTail d := by
  rw [chainTail_eq_foldl, chainTail_eq_foldl, h.chain]

theorem Untouched.chainFrontier_eq (h : Untouched d σ.log σ'.log) :
    chainFrontier σ' d = chainFrontier σ d := by
  unfold chainFrontier
  rw [h.tail, h.witness]

theorem CaughtUp.before (h : CaughtUp q s d head r.streams r'.streams) (hl : Leaves s d chain r₀ r) :
    CaughtUp q s d head r₀.streams r'.streams := by
  unfold CaughtUp Stranded at h ⊢
  rw [← hl.untouched.chainFrontier_eq]
  exact h

theorem CaughtUp.after (h : CaughtUp q s d head r.streams r₁.streams)
    (hl : Leaves s d chain r₁ r') : CaughtUp q s d head r.streams r'.streams := by
  unfold CaughtUp TailPast at h ⊢
  rw [hl.untouched.tail]
  exact h

/-- What a sender offers of the chain when it may push. -/
structure Pushes (q : Sender) (s : StreamId) (d : DeviceFingerprint) (head : ChainHead) : Prop where
  push : q.canPush = true
  perPage : 0 < q.limits.chainsPerPage
  offered : head ∈ chainHeads (q.streams s)
  device : head.device = d

variable (h : Parties q p s d chain) (hg : Guarded s d chain r.streams)

include h hg

theorem serveChain_other (hs : Serving t later chains r)
    (hfind : chains.find? (fun e => e.device = c.device) = some c) (hother : ¬ (t = s ∧ c.device = d))
    (hrun : Returns (serveChain q p t c frontier acc) r acc' r') : Leaves s d chain r r' := by
  obtain ⟨es, hfeeds, hsent, -⟩ := serveChain_feeds (h.sound t) hs hfind hrun
  obtain ⟨hg', hun⟩ := hg.feeds_other hother
    (fun hts e he => h.sender.stored e (hts ▸ hsent e he))
    (fun hts e he => (h.apart t hts).1 e (hsent e he)) hfeeds
  exact ⟨hg', hun⟩

theorem sendChains_other (hs : Serving t later chains r) (hfind : Listed chains pairs)
    (hother : ∀ pair ∈ pairs, ¬ (t = s ∧ pair.1.device = d))
    (hrun : Returns (sendChains q p t pairs acc) r acc' r') : Leaves s d chain r r' := by
  induction pairs generalizing acc r with
  | nil =>
    obtain ⟨-, rfl⟩ := returns_pure.mp hrun
    exact .refl hg
  | cons pair pairs ih =>
    obtain ⟨acc₁, r₁, hone, hrest⟩ := sendChains_cons hrun
    have hpair := hfind pair mem_cons_self
    obtain ⟨es, -, -, hs₁⟩ := serveChain_feeds (h.sound t) hs hpair hone
    have hl := serveChain_other h hg hs hpair (hother pair mem_cons_self) hone
    rcases hrest with ⟨-, -, rfl⟩ | hrest
    · exact hl
    · exact hl.trans (ih hl.guarded hs₁ (forall_mem_cons.mp hfind).2
        (forall_mem_cons.mp hother).2 hrest)

theorem Page.other (hpage : Page q p t later afterDevice acc acc₁ r r₁ chains last)
    (hother : ∀ c ∈ chains, ¬ (t = s ∧ c.device = d)) : Leaves s d chain r r₁ := by
  obtain ⟨r₀, r₂, hr₀, hs₀, hturns, hr₁⟩ := hpage.turns
  have hsorted := (pairwise_append.mp (hpage.sorted (h.sound t))).1
  have hl₀ : Leaves s d chain r r₀ := .of_streams_eq hg hr₀
  have hl₂ : Leaves s d chain r₀ r₂ := by
    refine sendChains_other h hl₀.guarded hs₀ (listed_page hsorted _) (fun pair hpair => ?_) hturns
    obtain ⟨c, hc, rfl⟩ := mem_map.mp hpair
    exact hother c hc
  exact hl₀.trans (hl₂.trans (.of_streams_eq hl₂.guarded hr₁))

theorem sendPages_other (hl : Listening (t :: later) r)
    (hother : ∀ c ∈ headsAfter (q.streams t) afterDevice, ¬ (t = s ∧ c.device = d))
    (hrun : Returns (sendPages q p t turns afterDevice acc) r acc' r') : Leaves s d chain r r' := by
  induction turns generalizing afterDevice acc r with
  | zero => exact absurd hrun not_returns_outOfBound
  | succ turns ih =>
    rcases sendPages_cases (h.sound t) hl hrun with
      ⟨rfl, -, -⟩ | ⟨chains, last, acc₁, r₁, hpage, hrest⟩
    · exact .refl hg
    rw [← hpage.heads] at hother
    have hl₁ := hpage.other h hg fun c hc => hother c (mem_append_left _ hc)
    rcases hrest with ⟨rfl, -⟩ | ⟨-, hrest⟩
    · exact hl₁
    · exact hl₁.trans (ih hl₁.guarded hpage.listening
        (fun c hc => hother c (mem_append_right _ hc)) hrest)

theorem sendStream_other (hl : Listening (t :: later) r) (hne : t ≠ s)
    (hrun : Returns (sendStream q p t acc) r acc' r') : Leaves s d chain r r' := by
  obtain ⟨acc₁, r₁, hpages, hstreams, -, -⟩ := sendStream_cases (h.sound t) hl hrun
  have hl₁ := sendPages_other h hg hl (fun _ _ hts => hne hts.1) hpages
  exact hl₁.trans (.of_streams_eq hl₁.guarded hstreams)

theorem sendStreams_other (hl : Listening items r) (hnot : s ∉ items)
    (hrun : Returns (sendStreams q p items acc) r acc' r') : Leaves s d chain r r' := by
  induction items generalizing acc r with
  | nil =>
    obtain ⟨-, rfl⟩ := returns_pure.mp hrun
    exact .refl hg
  | cons t items ih =>
    obtain ⟨acc₁, r₁, hone, hrest⟩ := returns_bind.mp hrun
    obtain ⟨hne, hnot⟩ := ne_and_not_mem_of_not_mem_cons hnot
    obtain ⟨-, -, -, -, hl₁, -⟩ := sendStream_cases (h.sound t) hl hone
    have hleaves := sendStream_other h hg hl hne.symm hone
    exact hleaves.trans (ih hleaves.guarded hl₁ hnot hrest)

/-! ## 4. The turn of the chain -/

theorem sendChains_own (ho : Offers (q.streams s) d head) (hs : Serving s later chains r) (hfind : Listed chains pairs)
    (hapart : pairs.Pairwise fun a b => a.1.device ≠ b.1.device)
    (hmem : (head, chainFrontier (r.streams s) d) ∈ pairs)
    (hrun : Returns (sendChains q p s pairs acc) r acc' r') (hc : acc'.Clean)
    (hlt : acc'.sent < q.cap) :
    Guarded s d chain r'.streams ∧ CaughtUp q s d head r.streams r'.streams := by
  induction pairs generalizing acc r with
  | nil => cases hmem
  | cons pair pairs ih =>
    obtain ⟨acc₁, r₁, hone, hrest⟩ := sendChains_cons hrun
    obtain ⟨hne, hapart⟩ := pairwise_cons.mp hapart
    have hpair := hfind pair mem_cons_self
    have hfind' : Listed chains pairs := (forall_mem_cons.mp hfind).2
    obtain ⟨es, -, -, hs₁⟩ := serveChain_feeds (h.sound s) hs hpair hone
    have hrest : Returns (sendChains q p s pairs acc₁) r₁ acc' r' := by
      rcases hrest with ⟨hfull, rfl, -⟩ | hrest
      · omega
      · exact hrest
    by_cases hd : pair.1.device = d
    · -- the turn of the chain: no later one is of its device
      have heq : pair = (head, chainFrontier (r.streams s) d) := by
        rcases mem_cons.mp hmem with heq | hlater
        · exact heq.symm
        · exact absurd (hd.trans ho.device.symm) (hne _ hlater)
      rw [heq] at hone hpair
      have hturn := serveChain_own ⟨h.honest, h.admits, h.sender, ho, hg⟩ hs hpair hone
      have hgrows := sendChains_grows hrest
      have hl := sendChains_other h hturn.guarded hs₁ hfind'
        (fun x hx hx' => hne x hx (hd.trans hx'.2.symm)) hrest
      have hup : CaughtUp q s d head r.streams r₁.streams :=
        hturn.done (hgrows.clean hc) (hgrows.sent.trans_lt hlt)
      exact ⟨hl.guarded, hup.after hl⟩
    · have hl := serveChain_other h hg hs hpair (fun hx => hd hx.2) hone
      have hmem' : (head, chainFrontier (r₁.streams s) d) ∈ pairs := by
        rw [hl.untouched.chainFrontier_eq]
        refine (mem_cons.mp hmem).resolve_left fun heq => hd ?_
        rw [← heq]
        exact ho.device
      obtain ⟨hg', hup⟩ := ih hl.guarded hs₁ hfind' hapart hmem' hrest
      exact ⟨hg', hup.before hl⟩

theorem sendPages_own (ho : Offers (q.streams s) d head)
    (hpush : q.canPush = true) (hper : 0 < q.limits.chainsPerPage) (hl : Listening (s :: later) r)
    (hmem : head ∈ headsAfter (q.streams s) afterDevice)
    (hrun : Returns (sendPages q p s turns afterDevice acc) r acc' r') (hc : acc'.Clean) :
    Guarded s d chain r'.streams ∧ CaughtUp q s d head r.streams r'.streams := by
  induction turns generalizing afterDevice acc r with
  | zero => exact absurd hrun not_returns_outOfBound
  | succ turns ih =>
    rcases sendPages_cases (h.sound s) hl hrun with
      ⟨-, -, hnil⟩ | ⟨chains, last, acc₁, r₁, hpage, hrest⟩
    · rw [hnil hc hpush hper] at hmem
      cases hmem
    obtain ⟨hlt, hrest⟩ : acc₁.sent < q.cap ∧
        Returns (sendPages q p s turns (some last.device) acc₁) r₁ acc' r' := by
      rcases hrest with ⟨-, rfl⟩ | hrest
      · exact absurd hc.1 Bool.noConfusion
      · exact hrest
    obtain ⟨hsorted, -, hcross⟩ := pairwise_append.mp (hpage.sorted (h.sound s))
    rw [← hpage.heads] at hmem
    rcases mem_append.mp hmem with hin | hin
    · -- this page; the devices of the later ones are above
      obtain ⟨r₀, r₂, hr₀, hs₀, hturns, hr₁⟩ := hpage.turns
      have hl₀ : Leaves s d chain r r₀ := .of_streams_eq hg hr₀
      have hclean := (sendPages_grows (h.sound s) hpage.listening hrest).1.clean hc
      have hpair : (head, chainFrontier (r₀.streams s) d) ∈
          chains.map fun c => (c, chainFrontier (r.streams s) c.device) := by
        refine mem_map.mpr ⟨head, hin, ?_⟩
        rw [hr₀, ho.device]
      have hapart : (chains.map fun c => (c, chainFrontier (r.streams s) c.device)).Pairwise
          fun a b => a.1.device ≠ b.1.device :=
        pairwise_map.mpr (hsorted.imp fun hlt => hlt.ne)
      obtain ⟨hg₂, hup⟩ := sendChains_own h hl₀.guarded ho hs₀ (listed_page hsorted _) hapart hpair
        hturns hclean hlt
      have hl₁ : Leaves s d chain r₂ r₁ := .of_streams_eq hg₂ hr₁
      have hl' := sendPages_other h hl₁.guarded hpage.listening
        (fun c hc' ⟨_, hd⟩ => (hcross head hin c hc').ne (ho.device.trans hd.symm)) hrest
      exact ⟨hl'.guarded, (hup.before hl₀).after (hl₁.trans hl')⟩
    · -- a later page
      have hl₁ := hpage.other h hg fun c hc' ⟨_, hd⟩ =>
        (hcross c hc' head hin).ne (hd.trans ho.device.symm)
      obtain ⟨hg', hup⟩ := ih hl₁.guarded hpage.listening hin hrest
      exact ⟨hg', hup.before hl₁⟩

theorem sendStream_own (hp : Pushes q s d head) (hl : Listening (s :: later) r)
    (hrun : Returns (sendStream q p s acc) r acc' r') (hcont : acc'.continuationPending = false)
    (hskip : acc'.chainsSkipped = 0) :
    Guarded s d chain r'.streams ∧ CaughtUp q s d head r.streams r'.streams := by
  obtain ⟨acc₁, r₁, hpages, hstreams, -, rfl⟩ := sendStream_cases (h.sound s) hl hrun
  have hclean : acc₁.Clean := ⟨(Bool.or_eq_false_iff.mp hcont).2, hskip⟩
  -- the stream owed nothing from the start, so its heads are its tails
  have hsettled : (q.streams s).streamPending = false :=
    ((sendPages_grows (h.sound s) hl hpages).1.clean hclean).1
  have ho : Offers (q.streams s) d head :=
    hp.device ▸ offers_of_mem (h.sound s) hsettled hp.offered
  have hmem : head ∈ headsAfter (q.streams s) none := mem_filter.mpr ⟨hp.offered, rfl⟩
  obtain ⟨hg₁, hup⟩ := sendPages_own h hg ho hp.push hp.perPage hl hmem hpages hclean
  have hl' : Leaves s d chain r₁ r' := .of_streams_eq hg₁ hstreams
  exact ⟨hl'.guarded, hup.after hl'⟩

theorem sendStreams_own (hp : Pushes q s d head) (hl : Listening items r) (hnodup : items.Nodup)
    (hmem : s ∈ items) (hrun : Returns (sendStreams q p items acc) r acc' r')
    (hcont : acc'.continuationPending = false) (hskip : acc'.chainsSkipped = 0) :
    Guarded s d chain r'.streams ∧ CaughtUp q s d head r.streams r'.streams := by
  induction items generalizing acc r with
  | nil => cases hmem
  | cons t items ih =>
    obtain ⟨acc₁, r₁, hone, hrest⟩ := returns_bind.mp hrun
    obtain ⟨hnot, hnodup⟩ := nodup_cons.mp hnodup
    obtain ⟨-, -, -, -, hl₁, -⟩ := sendStream_cases (h.sound t) hl hone
    by_cases hts : t = s
    · subst hts
      have hkeeps := (sendStreams_keeps h.sound hl₁ hrest).1
      have hcont₁ : acc₁.continuationPending = false := by
        by_contra hp'
        rw [hkeeps.continuation (Bool.eq_true_of_not_eq_false hp')] at hcont
        cases hcont
      obtain ⟨hg₁, hup⟩ := sendStream_own h hg hp hl hone hcont₁
        (Nat.le_zero.mp (hskip ▸ hkeeps.skipped))
      have hl' := sendStreams_other h hg₁ hl₁ hnot hrest
      exact ⟨hl'.guarded, hup.after hl'⟩
    · have hleaves := sendStream_other h hg hl hts hone
      obtain ⟨hg', hup⟩ := ih hleaves.guarded hl₁ hnodup
        ((mem_cons.mp hmem).resolve_left (Ne.symm hts)) hrest
      exact ⟨hg', hup.before hleaves⟩

end Direction

/-! ## 5. Two reached stores -/

/-- A reached store, honest towards the chain; its other streams are apart from it. -/
structure ReachedStore (s : StreamId) (d : DeviceFingerprint) (chain : List VerifiedEntry)
    (ρ : Streams) : Prop where
  own : ∃ sc authored, StreamReached sc (fun σ op => op.Upheld sc d chain σ) (ρ s) authored
  others : ∀ t, t ≠ s → (∃ sc ok authored, StreamReached sc ok (ρ t) authored) ∧ Apart chain (ρ t).log

theorem ReachedStore.sound (h : ReachedStore s d chain ρ) (t : StreamId) (d : DeviceFingerprint) :
    Sound (ρ t).log d := by
  by_cases hts : t = s
  · subst hts
    obtain ⟨sc, authored, hreached⟩ := h.own
    exact hreached.dated.1 d
  · obtain ⟨⟨sc, ok, authored, hreached⟩, -⟩ := h.others t hts
    exact hreached.dated.1 d

theorem ReachedStore.guarded (h : ReachedStore s d chain ρ) (hc : HonestChain s d chain) :
    Guarded s d chain ρ := by
  obtain ⟨sc, authored, hreached⟩ := h.own
  obtain ⟨hup, hd⟩ := hreached.upheld hc
  exact ⟨hup, hd, fun t hts => (h.others t hts).2⟩

/-- **A direction catches the receiver up, exactly where the chain is not stranded.** Two reached
    stores, an honest chain whose signer the receiver takes for a writer, and a direction that ends
    with nothing pending and no chain skipped: the receiver's tail is at or above the head offered
    and its entries from the root on are linked, unless the chain was stranded. -/
theorem session_catches_up {q : Sender} {p : Receiver} {items : List StreamId} {head : ChainHead}
    {acc : Sending} {r : Receiving} (hc : HonestChain s d chain) (hq : ReachedStore s d chain q.streams)
    (hr : ReachedStore s d chain ρ) (hp : Admits p s d) (hpush : Pushes q s d head)
    (hnodup : items.Nodup) (hmem : s ∈ items)
    (hrun : Returns (sendDirection q p items) (.start ρ items) acc r)
    (hcont : acc.continuationPending = false) (hskip : acc.chainsSkipped = 0) :
    (TailPast (r.streams s).log d head.lamport ∧ ((r.streams s).log.pathOf d).IsChain Links) ↔
      ¬ Stranded (q.streams s) (ρ s) d := by
  have hpar : Parties q p s d chain :=
    ⟨hc, hp, (hq.guarded hc).upholds, hq.sound, fun t hts => (hq.others t hts).2⟩
  obtain ⟨acc₁, r₁, hstreams, hdone⟩ := returns_bind.mp hrun
  obtain ⟨answer, r₂, hframe, hpure⟩ := returns_bind.mp hdone
  obtain ⟨rfl, rfl⟩ := returns_pure.mp hpure
  have hl : Listening items (.start ρ items) := ⟨rfl, rfl⟩
  obtain ⟨-, rfl⟩ := (receiveFrame_done (sendStreams_keeps hq.sound hl hstreams).2.1).unique hframe
  obtain ⟨hg, hup⟩ := sendStreams_own hpar (hr.guarded hc) hpush hl hnodup hmem hstreams hcont hskip
  rw [and_iff_left (hg.upholds.sound d).linked]
  exact hup

/-! ### A chain restored after a purge -/

/-- The operation brings an entry of the chain, or nothing. -/
def bringsOnly (chain : List VerifiedEntry) (_ : StreamStore) : StreamOp → Bool
  | .ingest _ _ r => r.entry ∈ chain
  | .purge => true
  | _ => false

theorem upheld_of_bringsOnly {sc : Scope} (σ : StreamStore) (op : StreamOp)
    (h : bringsOnly chain σ op = true) : op.Upheld sc d chain σ := by
  cases op with
  | ingest bound ctx r =>
    refine ⟨fun σ' new hs e he => ?_, (fun _ _ _ _ h => by cases h), fun _ h => by cases h⟩
    have hin : r.entry ∈ chain := of_decide_eq_true h
    rcases he with ⟨_, _, r', heq, rfl⟩ | hnew
    · cases heq
      exact .inl hin
    simp only [streamStep] at hs
    split at hs
    · cases hs
      cases hnew
    · cases hs
  | purge =>
    refine ⟨fun σ' new hs e he => ?_, (fun _ _ _ _ h => by cases h), fun _ h => by cases h⟩
    cases hs
    rcases he with ⟨_, _, _, heq, _⟩ | hnew
    · cases heq
    · cases hnew
  | author => cases h
  | replay => cases h
  | compact => cases h
  | localWork => cases h
  | expire => cases h
  | otherStreams => cases h

/-- What a store holds after these operations on the chain. -/
def noteStore (ops : List StreamOp) : StreamStore :=
  ((runStream noteScope (bringsOnly noteChain) .empty [] ops).map (·.1)).getD .empty

/-- The one stream of a store. -/
def onStream (σ : StreamStore) : Streams := fun s => if s = 0 then σ else .empty

theorem reached_noteStore {ops : List StreamOp}
    (h : (runStream noteScope (bringsOnly noteChain) .empty [] ops).isSome) :
    ReachedStore 0 7 noteChain (onStream (noteStore ops)) where
  own := by
    obtain ⟨r, hr⟩ := Option.isSome_iff_exists.mp h
    have hreached : StreamReached noteScope (fun σ op => op.Upheld noteScope 7 noteChain σ) r.1 r.2 :=
      StreamReached.start.run upheld_of_bringsOnly hr
    have hstore : onStream (noteStore ops) 0 = r.1 := by
      show noteStore ops = r.1
      unfold noteStore
      rw [hr]
      rfl
    rw [hstore]
    exact ⟨noteScope, r.2, hreached⟩
  others t hts := by
    have hempty : onStream (noteStore ops) t = .empty := if_neg hts
    rw [hempty]
    exact ⟨⟨noteScope, fun _ _ => True, [], .start⟩, nofun, nofun⟩

/-- A side that sends what it holds. -/
def noteSender (ops : List StreamOp) : Sender := ⟨onStream (noteStore ops), true, .default⟩

/-- A side that takes everything. -/
def noteReceiver : Receiver := ⟨5, fun _ => noteCtx, true, .default⟩

/-- All three entries. -/
def fullRun : List StreamOp := noteChain.map fun v => receiveNote v none none

/-- Two entries, a purge, and the witness given back by a peer. -/
def restoredRun : List StreamOp :=
  (noteChain.take 2).map (fun v => receiveNote v none none) ++
    [.purge, receiveNote (noteUpsert 101 1 (some 100) "b") none none]

/-- From a whole chain to an empty store. -/
theorem session_catches_up_full :
    ∃ acc r, Returns (sendDirection (noteSender fullRun) noteReceiver [0])
        (.start (onStream (noteStore [])) [0]) acc r ∧
      TailPast (r.streams 0).log 7 2 ∧ ((r.streams 0).log.pathOf 7).IsChain Links := by
  have hseen : seen (sendDirection (noteSender fullRun) noteReceiver [0])
      (.start (onStream (noteStore [])) [0])
      (fun acc _ => (acc.continuationPending, acc.chainsSkipped)) = some (false, 0) := by
    decide +kernel
  obtain ⟨acc, r, hrun, hview⟩ := returns_of_seen hseen
  refine ⟨acc, r, hrun, ?_⟩
  have hpush : Pushes (noteSender fullRun) 0 7 ⟨7, 2, 102, none⟩ :=
    ⟨rfl, by decide, by decide +kernel, rfl⟩
  have hc : HonestChain 0 7 noteChain := honest_noteChain
  have hq : ReachedStore 0 7 noteChain (noteSender fullRun).streams :=
    reached_noteStore (by decide +kernel)
  refine (session_catches_up hc hq (reached_noteStore (by decide +kernel)) ⟨rfl, rfl⟩ hpush
    (by decide) (by decide) hrun (congrArg Prod.fst hview) (congrArg Prod.snd hview)).mpr
    fun hstr => ?_
  obtain ⟨-, -, lowest, hlow, hprev⟩ := hstr
  have hgenesis : (chainByLamport ((noteSender fullRun).streams 0).log 7).head?.map (·.prevHash) =
      some none := by
    decide +kernel
  rw [hlow] at hgenesis
  exact hprev (Option.some.inj hgenesis)

/-- From a chain restored after a purge to an empty store: the direction reports that nothing is
    pending and no chain skipped, and the receiver has stored nothing of the chain. -/
theorem restored_chain_not_delivered :
    HonestChain 0 7 noteChain ∧
      ReachedStore 0 7 noteChain (onStream (noteStore restoredRun)) ∧
      ReachedStore 0 7 noteChain (onStream (noteStore [])) ∧ Admits noteReceiver 0 7 ∧
      Pushes (noteSender restoredRun) 0 7 ⟨7, 1, 101, none⟩ ∧
      ∃ acc r, Returns (sendDirection (noteSender restoredRun) noteReceiver [0])
          (.start (onStream (noteStore [])) [0]) acc r ∧
        acc.continuationPending = false ∧ acc.chainsSkipped = 0 ∧
        ¬ TailPast (r.streams 0).log 7 1 := by
  refine ⟨honest_noteChain, reached_noteStore (by decide +kernel), reached_noteStore (by decide +kernel),
    ⟨rfl, rfl⟩, ⟨rfl, by decide, by decide +kernel, rfl⟩, ?_⟩
  have hseen : seen (sendDirection (noteSender restoredRun) noteReceiver [0])
      (.start (onStream (noteStore [])) [0])
      (fun acc r => (acc.continuationPending, acc.chainsSkipped, (r.streams 0).log.chainTail 7)) =
        some (false, 0, none) := by
    decide +kernel
  obtain ⟨acc, r, hrun, hview⟩ := returns_of_seen hseen
  refine ⟨acc, r, hrun, congrArg Prod.fst hview, congrArg (·.2.1) hview, fun ⟨t, ht, _⟩ => ?_⟩
  have hnone : (r.streams 0).log.chainTail 7 = none := congrArg (·.2.2) hview
  rw [ht] at hnone
  cases hnone

end RagRat.TableSync
