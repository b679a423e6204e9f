/-
  File:      RagRat/TableSync/Delivery.lean
  Subject:   DELIVERY ORDER DOES NOT MATTER. The entries of one honest chain, fed to `ingest` in any
             order and any number of times, end up stored, with the tail at the last one and none held.

  * `Fed` -- the invariant: a prefix of the chain is stored, and of the rest exactly what was fed is
    held; the sweeps that give up held entries never reach the chain (`Spared`);
  * `drainChildren_next`, `ingestTurn_fed`, `ingest_fed` -- an acceptance promotes the held successors
    one by one, and every loop leaves within its bound.

  An entry offered as the floor of its chain may be adopted as a root, and what lies below is then
  not asked for; the feed here offers no entry as its own floor.
-/
import RagRat.TableSync.Continuity

namespace RagRat.TableSync

open List
open Lib.Ascending
open Lib.Loop (loop loop_succ_inl loop_succ_inr loop_rule)
open ChainLog VerifiedEntry

variable {log log' log₁ log₂ log₃ start : ChainLog} {root prev hash parent : EntryHash}
  {stream : StreamId} {d : DeviceFingerprint} {chain pre post rest fed fed' : List VerifiedEntry}
  {e f z c v g : VerifiedEntry} {n bound : Nat} {ctx : SyncCtx} {advertised : Option ChainCursor}
  {σ : Replica}

/-! ## 1. The chain and the store -/

/-- Linked entries with ascending lamports, no two of one hash. -/
structure HonestChain (stream : StreamId) (d : DeviceFingerprint) (chain : List VerifiedEntry) :
    Prop where
  stream : ∀ e ∈ chain, e.streamId = stream
  device : ∀ e ∈ chain, e.device = d
  genesis : ∀ e ∈ chain.head?, e.prevHash = none
  linked : chain.IsChain Links
  rises : Rises (·.lamport) chain
  apart : ∀ a ∈ chain, ∀ b ∈ chain, a.entryHash = b.entryHash → a = b

/-- The store holds nothing of the chain, and no other entry under a hash of it. -/
structure HoldsNothing (log : ChainLog) (d : DeviceFingerprint) (chain : List VerifiedEntry) :
    Prop where
  accepted : ∀ e ∈ log.accepted, e.device ≠ d
  held : ∀ e ∈ log.gapped, e.device ≠ d
  witness : log.chainWitness d = none
  floor : log.retainedFloors d = none
  fresh : ∀ c ∈ chain, log.entryExists c.entryHash = false ∧ log.gappedEntryExists c.entryHash = false

/-- The chain's lamports are below the ceiling and within the accepted advance of the store. -/
def WithinAdvance (log : ChainLog) (chain : List VerifiedEntry) : Prop :=
  ∀ e ∈ chain, e.lamport < maxEntryLamport ∧
    e.lamport ≤ log.streamMaxLamport.getD 0 + maxLamportAdvance

theorem HonestChain.prev_next (h : HonestChain stream d chain) (hs : pre ++ f :: post = chain) :
    f.prevHash = pre.getLast?.map (·.entryHash) := by
  subst hs
  cases hz : pre.getLast? with
  | none =>
    rw [getLast?_eq_none_iff.mp hz] at h
    exact h.genesis f rfl
  | some z => exact (isChain_append.mp h.linked).2.2 z hz f rfl

theorem HonestChain.prev_later (h : HonestChain stream d chain) (hs : pre ++ f :: post = chain)
    (he : e ∈ post) : ∃ p ∈ f :: post, e.prevHash = some p.entryHash := by
  obtain ⟨mid, post, rfl⟩ := append_of_mem he
  have hprev := h.prev_next (show (pre ++ f :: mid) ++ e :: post = chain by simpa using hs)
  rw [getLast?_append_of_ne_nil _ (cons_ne_nil f mid), getLast?_eq_some_getLast (cons_ne_nil f mid)]
    at hprev
  exact ⟨_, mem_append_left (e :: post) (getLast_mem (cons_ne_nil f mid)), hprev⟩

theorem HonestChain.prev_mem (h : HonestChain stream d chain) (he : e ∈ chain)
    (hp : e.prevHash = some hash) : ∃ p ∈ chain, p.entryHash = hash := by
  obtain ⟨pre, post, rfl⟩ := append_of_mem he
  rw [h.prev_next rfl] at hp
  obtain ⟨z, hz, rfl⟩ := Option.map_eq_some_iff.mp hp
  exact ⟨z, mem_append_left _ (mem_of_getLast? hz), rfl⟩

theorem HonestChain.lt_of_split (h : HonestChain stream d chain) (hs : pre ++ rest = chain)
    (hz : z ∈ pre) (he : e ∈ rest) : z.lamport < e.lamport := by
  subst hs
  exact (pairwise_append.mp h.rises).2.2 z hz e he

section Order

theorem HonestChain.first_le (h : HonestChain stream d chain) (hv : v ∈ chain)
    (hp : v.prevHash = none) (hg : g ∈ chain) : v.lamport ≤ g.lamport := by
  obtain ⟨pre, post, rfl⟩ := append_of_mem hv
  have hnil : pre = [] := by
    rw [h.prev_next rfl, Option.map_eq_none_iff] at hp
    exact getLast?_eq_none_iff.mp hp
  subst hnil
  rcases mem_cons.mp hg with rfl | hg
  · exact le_rfl
  · exact ((pairwise_cons.mp h.rises).1 g hg).le

variable (h : HonestChain stream d chain) (hc : c ∈ chain) (hv : v ∈ chain)
  (hp : v.prevHash = some c.entryHash)

include h hc hv hp

theorem HonestChain.split_child : ∃ pre post, pre ++ v :: post = chain ∧ pre.getLast? = some c := by
  obtain ⟨pre, post, rfl⟩ := append_of_mem hv
  rw [h.prev_next rfl] at hp
  obtain ⟨z, hz, hzc⟩ := Option.map_eq_some_iff.mp hp
  obtain rfl : z = c := h.apart z (mem_append_left _ (mem_of_getLast? hz)) c hc hzc
  exact ⟨pre, post, rfl, hz⟩

theorem HonestChain.next_le (hg : g ∈ chain) (hlt : c.lamport < g.lamport) :
    v.lamport ≤ g.lamport := by
  obtain ⟨pre, post, rfl, hz⟩ := h.split_child hc hv hp
  obtain ⟨-, hpost, -⟩ := pairwise_append.mp h.rises
  rcases mem_append.mp hg with hg | hg
  · have hle := (h.rises.sublist (sublist_append_left _ _)).key_le_last hz hg
    omega
  · rcases mem_cons.mp hg with rfl | hg
    · exact le_rfl
    · exact ((pairwise_cons.mp hpost).1 g hg).le

theorem HonestChain.prev_lt : c.lamport < v.lamport := by
  obtain ⟨pre, post, hs, hz⟩ := h.split_child hc hv hp
  exact h.lt_of_split hs (mem_of_getLast? hz) mem_cons_self

theorem HonestChain.child_unique (hg : g ∈ chain) (hpg : g.prevHash = some c.entryHash) : g = v := by
  have h₁ := h.next_le hc hv hp hg (h.prev_lt hc hg hpg)
  have h₂ := h.next_le hc hg hpg hv (h.prev_lt hc hv hp)
  exact h.rises.eq_of_key hg hv (le_antisymm h₂ h₁)

end Order

/-! ## 2. What has been fed -/

/-- Some entry or tip of another device stands at `n`, or `n` is zero. -/
def OthersReach (log : ChainLog) (d : DeviceFingerprint) (n : Nat) : Prop :=
  n = 0 ∨ (∃ e ∈ log.accepted, e.device ≠ d ∧ e.lamport = n) ∨
    ∃ t ∈ log.chainTips, t.1 ≠ d ∧ t.2.lamport = n

/-- **What a feed has reached**: `pre` is stored, and of `rest` exactly what was fed is held, once.
    Everything else was there at the `start`, or given up. -/
structure Fed (start : ChainLog) (d : DeviceFingerprint) (chain pre rest fed : List VerifiedEntry)
    (log : ChainLog) : Prop where
  split : pre ++ rest = chain
  stored : log.chainOf d = pre
  others : ∀ e ∈ log.accepted, e.device ≠ d → e ∈ start.accepted
  elsewhere : log.elsewhere = start.elsewhere
  clock : OthersReach log d (start.streamMaxLamport.getD 0)
  witness : pre = [] → log.chainWitness d = none
  floor : log.retainedFloors d = none
  held : ∀ e ∈ log.gapped, (e ∈ rest ∧ e ∈ fed) ∨
    (e.device ≠ d ∧ ∀ c ∈ chain, c.entryHash ≠ e.entryHash)
  kept : ∀ e ∈ rest, e ∈ fed → e ∈ log.gapped
  once : (log.gapped.filter fun e => e.device = d).Nodup

theorem OthersReach.le_max (h : OthersReach log d n) : n ≤ log.streamMaxLamport.getD 0 := by
  rcases h with rfl | ⟨e, he, -, rfl⟩ | ⟨t, ht, -, rfl⟩
  · exact Nat.zero_le _
  · obtain ⟨p, hp, rfl⟩ := mem_map.mp he
    obtain ⟨highest, hmax, hle⟩ := max_of_mem (mem_append_left _ (mem_map_of_mem hp))
    exact hmax ▸ hle
  · obtain ⟨highest, hmax, hle⟩ := max_of_mem (mem_append_right _ (mem_map_of_mem ht))
    exact hmax ▸ hle

theorem fed_nil (h : HoldsNothing start d chain) : Fed start d chain [] chain [] start where
  split := rfl
  stored := filter_eq_nil_iff.mpr fun e he => by simpa using h.accepted e he
  others e he _ := he
  elsewhere := rfl
  clock := by
    unfold ChainLog.streamMaxLamport
    cases hmax : (start.entries.map (·.lamport) ++ start.chainTips.map (·.2.lamport)).max? with
    | none => exact .inl rfl
    | some highest =>
      rcases mem_append.mp (max?_eq_some_iff.mp hmax).1 with hm | hm
      · obtain ⟨p, hp, rfl⟩ := mem_map.mp hm
        exact .inr (.inl ⟨p.toVerifiedEntry, mem_map_of_mem hp,
          h.accepted _ (mem_map_of_mem hp), rfl⟩)
      · obtain ⟨t, ht, rfl⟩ := mem_map.mp hm
        refine .inr (.inr ⟨t, ht, fun heq => ?_, rfl⟩)
        have hne := lookup_eq_none_iff.mp h.witness t ht
        simp [heq] at hne
  witness _ := h.witness
  floor := h.floor
  held e he := by
    refine .inr ⟨h.held e he, fun c hc heq => ?_⟩
    have hnot := (h.fresh c hc).2
    rw [ChainLog.gappedEntryExists, any_eq_false] at hnot
    exact hnot e he (decide_eq_true heq.symm)
  kept e _ he := by cases he
  once := by
    rw [filter_eq_nil_iff.mpr fun e he => by simpa using h.held e he]
    exact nodup_nil

section

variable (h : Fed start d chain pre rest fed log)

include h

theorem Fed.mem_chain (he : e ∈ rest) : e ∈ chain :=
  h.split ▸ mem_append_right _ he

theorem Fed.held_own (he : e ∈ log.gapped) (hdev : e.device = d) : e ∈ rest ∧ e ∈ fed :=
  (h.held e he).resolve_right fun hforeign => hforeign.1 hdev

theorem Fed.not_exists (hc : HonestChain stream d chain) (hn : HoldsNothing start d chain)
    (he : e ∈ rest) : log.entryExists e.entryHash = false := by
  have hstart := (hn.fresh e (h.mem_chain he)).1
  rw [Bool.eq_false_iff, ne_eq, entryExists_iff, not_or] at hstart ⊢
  refine ⟨?_, h.elsewhere ▸ hstart.2⟩
  rintro ⟨p, hacc, heq⟩
  by_cases hdev : p.device = d
  · -- a stored entry of the device lies in the prefix, below everything of the rest
    have hpre : p ∈ pre := h.stored ▸ mem_filter.mpr ⟨hacc, decide_eq_true hdev⟩
    obtain rfl := hc.apart p (h.split ▸ mem_append_left _ hpre) e (h.mem_chain he) heq
    exact lt_irrefl _ (hc.lt_of_split h.split hpre he)
  · exact hstart.1 ⟨p, h.others p hacc hdev, heq⟩

theorem Fed.exists_of_stored (he : e ∈ pre) : log.entryExists e.entryHash = true := by
  rw [← h.stored] at he
  exact entryExists_iff.mpr (.inl ⟨e, mem_of_mem_filter he, rfl⟩)

theorem Fed.gapped_iff (hc : HonestChain stream d chain) (he : e ∈ rest) :
    log.gappedEntryExists e.entryHash = true ↔ e ∈ log.gapped := by
  unfold ChainLog.gappedEntryExists
  rw [any_eq_true]
  constructor
  · rintro ⟨g, hg, heq⟩
    have heq : g.entryHash = e.entryHash := of_decide_eq_true heq
    rcases h.held g hg with ⟨hrest, -⟩ | ⟨-, hne⟩
    · exact hc.apart g (h.mem_chain hrest) e (h.mem_chain he) heq ▸ hg
    · exact absurd heq.symm (hne e (h.mem_chain he))
  · exact fun hg => ⟨e, hg, decide_eq_true rfl⟩

theorem Fed.tail (hc : HonestChain stream d chain) : log.chainTail d = pre.getLast?.map cursor := by
  have hrises := hc.rises
  rw [← h.split] at hrises
  rw [chainTail_eq (h.stored ▸ (pairwise_append.mp hrises).1), h.stored]

theorem Fed.congr_fed (hset : ∀ e, e ∈ fed' ↔ e ∈ fed) : Fed start d chain pre rest fed' log :=
  { h with
    held := fun e he => (h.held e he).imp_left fun ⟨hr, hf⟩ => ⟨hr, (hset e).mpr hf⟩
    kept := fun e he hf => h.kept e he ((hset e).mp hf) }

theorem Fed.same (hs : SameChains log log') : Fed start d chain pre rest fed log' where
  split := h.split
  stored := (chainOf_congr hs.accepted d).trans h.stored
  others := hs.accepted ▸ h.others
  elsewhere := hs.elsewhere.trans h.elsewhere
  clock := by
    have hclock := h.clock
    unfold OthersReach at hclock ⊢
    rw [hs.accepted, hs.tips]
    exact hclock
  witness hpre := (chainWitness_congr hs.tips d).trans (h.witness hpre)
  floor := (congrFun hs.floors d).trans h.floor
  held := hs.gapped ▸ h.held
  kept := hs.gapped ▸ h.kept
  once := hs.gapped ▸ h.once

theorem Fed.again (he : e ∈ rest → e ∈ log.gapped) : Fed start d chain pre rest (e :: fed) log :=
  { h with
    held := fun g hg => (h.held g hg).imp_left fun ⟨hr, hf⟩ => ⟨hr, mem_cons_of_mem _ hf⟩
    kept := fun g hg hf => by
      rcases mem_cons.mp hf with rfl | hf
      · exact he hg
      · exact h.kept g hg hf }

theorem Fed.hold (he : e ∈ rest) (hnot : e ∉ log.gapped) :
    Fed start d chain pre rest (e :: fed) { log with gapped := log.gapped ++ [e] } :=
  { h with
    held := fun g hg => by
      rcases mem_append.mp hg with hg | hg
      · exact (h.held g hg).imp_left fun ⟨hr, hf⟩ => ⟨hr, mem_cons_of_mem _ hf⟩
      · rw [mem_singleton.mp hg]
        exact .inl ⟨he, mem_cons_self⟩
    kept := fun g hg hf => by
      rcases mem_cons.mp hf with rfl | hf
      · exact mem_append_right _ mem_cons_self
      · exact mem_append_left _ (h.kept g hg hf)
    once := by
      rw [filter_append]
      refine List.Nodup.append h.once (List.Nodup.filter _ (nodup_singleton e)) ?_
      intro g hg hg'
      rw [mem_singleton.mp (mem_of_mem_filter hg')] at hg
      exact hnot (mem_of_mem_filter hg) }

end

theorem mem_raiseTip_of_ne {t : DeviceFingerprint × ChainCursor} (ht : t ∈ log.chainTips)
    (hne : t.1 ≠ v.device) : t ∈ (log.raiseTip v).chainTips := by
  unfold raiseTip
  split
  · split
    · exact mem_map.mpr ⟨t, ht, if_neg hne⟩
    · exact ht
  · exact mem_append_left _ ht

theorem Fed.store (h : Fed start d chain pre (f :: post) fed log) (hc : HonestChain stream d chain)
    (hnot : f ∉ log.gapped) (ha : log'.accepted = log.accepted ++ [f])
    (hf : log'.retainedFloors = log.retainedFloors)
    (ht : log'.chainTips = (log.raiseTip f).chainTips) (hg : log'.gapped = log.gapped)
    (hels : log'.elsewhere = log.elsewhere) :
    Fed start d chain (pre ++ [f]) post (f :: fed) log' := by
  have hdev : f.device = d := hc.device f (h.mem_chain mem_cons_self)
  subst hdev
  refine ⟨by rw [← h.split, append_assoc]; rfl, ?_, fun e he hne => ?_, hels.trans h.elsewhere, ?_,
    fun hnil => absurd hnil (by simp), (congrFun hf _).trans h.floor, fun e he => ?_,
    fun e he hfed => ?_, hg ▸ h.once⟩
  · rw [chainOf_store_self ha, h.stored]
  · rw [ha] at he
    rcases mem_append.mp he with he | he
    · exact h.others e he hne
    · exact absurd (congrArg device (mem_singleton.mp he)) hne
  · rcases h.clock with hz | ⟨e, he, hne, heq⟩ | ⟨t, hmem, hne, heq⟩
    · exact .inl hz
    · exact .inr (.inl ⟨e, ha ▸ mem_append_left _ he, hne, heq⟩)
    · exact .inr (.inr ⟨t, ht ▸ mem_raiseTip_of_ne hmem hne, hne, heq⟩)
  · rw [hg] at he
    refine (h.held e he).imp_left fun ⟨hrest, hfed⟩ => ⟨?_, mem_cons_of_mem _ hfed⟩
    rcases mem_cons.mp hrest with rfl | hpost
    · exact absurd he hnot
    · exact hpost
  · rw [hg]
    rcases mem_cons.mp hfed with rfl | hfed
    · -- the entry itself does not come again in its chain
      have hrises := hc.rises
      rw [← h.split] at hrises
      have hlt := (pairwise_cons.mp (pairwise_append.mp hrises).2.1).1 e he
      omega
    · exact h.kept e (mem_cons_of_mem _ he) hfed

theorem Fed.drop (h : Fed start d chain pre rest fed log) (hc : HonestChain stream d chain)
    (he : e ∈ rest) :
    Fed start d chain pre rest (fed.filter fun g => g ≠ e) (log.dropGapped e.entryHash) :=
  { h with
    held := fun g hg => by
      obtain ⟨hg, hne⟩ := mem_filter.mp hg
      have hne : g.entryHash ≠ e.entryHash := of_decide_eq_true hne
      refine (h.held g hg).imp_left fun ⟨hr, hf⟩ => ⟨hr, mem_filter.mpr ⟨hf, decide_eq_true ?_⟩⟩
      exact fun heq => hne (congrArg _ heq)
    kept := fun g hg hf => by
      obtain ⟨hf, hne⟩ := mem_filter.mp hf
      have hne : g ≠ e := of_decide_eq_true hne
      refine mem_filter.mpr ⟨h.kept g hg hf, decide_eq_true fun heq => hne ?_⟩
      exact hc.apart g (h.mem_chain hg) e (h.mem_chain he) heq
    once := by
      unfold ChainLog.dropGapped
      rw [filter_filter]
      exact List.Nodup.sublist (monotone_filter_right _ (by simp +contextual)) h.once }

/-! ## 3. One entry of the chain -/

/-- What the chain is fed under. -/
structure Feedable (ctx : SyncCtx) (start : ChainLog) (d : DeviceFingerprint)
    (chain : List VerifiedEntry) : Prop where
  honest : HonestChain ctx.scope.streamId d chain
  nothing : HoldsNothing start d chain
  writer : ctx.effectiveWriter d = true
  advance : WithinAdvance start chain
  length : chain.length ≤ maxGappedPerChain

section Accept

theorem not_floor (hadv : advertised ≠ some e.cursor) :
    adoptsFloor log e advertised = false ∧ adoptableFloorRoot log e advertised = false := by
  cases advertised with
  | none => exact ⟨rfl, rfl⟩
  | some floor =>
    have hne : e.cursor ≠ floor := fun h => hadv (congrArg some h.symm)
    exact ⟨decide_eq_false fun h => hne h.1, decide_eq_false fun h => hne h.1⟩

variable (hfd : Feedable ctx start d chain)

include hfd

theorem accept_eq (h : Fed start d chain pre rest fed log) (he : e ∈ chain)
    (hadv : advertised ≠ some e.cursor) :
    ∃ hlt, acceptRowEntry ctx.acceptCtx log e advertised =
      if log.entryExists e.entryHash then .ok (.alreadyPresent, log)
      else if log.gappedEntryExists e.entryHash then .ok (.alreadyGapped, log)
      else .ok (acceptFit ctx.acceptCtx log e advertised hlt) := by
  obtain ⟨hlt, hmax⟩ := hfd.advance e he
  refine ⟨hlt, ?_⟩
  have hdev := hfd.honest.device e he
  have hclock := h.clock.le_max
  have hstream : ¬ (e.streamId ≠ ctx.acceptCtx.expectedStream) :=
    not_not.mpr (hfd.honest.stream e he)
  have hfloor : log.belowFloor e.device e.lamport = false :=
    belowFloor_of_none (hdev ▸ h.floor) _
  have hwriter : ctx.acceptCtx.effectiveWriter e.device = true := hdev ▸ hfd.writer
  unfold acceptRowEntry
  rw [if_neg hstream, dif_pos hlt]
  simp only
  rw [if_neg (by omega), hfloor, hwriter, (not_floor hadv).2]
  simp only [Bool.not_true, Bool.false_eq_true, if_false]

theorem classify_eq (h : Fed start d chain pre rest fed log) (he : e ∈ chain)
    (hadv : advertised ≠ some e.cursor) : classify log e advertised = fitTail log e := by
  have htail := h.tail hfd.honest
  unfold classify
  rw [(not_floor hadv).1, hfd.honest.device e he, htail]
  cases hz : pre.getLast? with
  | none =>
    rw [h.witness (getLast?_eq_none_iff.mp hz)]
    rfl
  | some z => rfl

theorem classify_next (h : Fed start d chain pre (f :: post) fed log)
    (hadv : advertised ≠ some f.cursor) : classify log f advertised = .ok := by
  have hmem := h.mem_chain mem_cons_self
  rw [classify_eq hfd h hmem hadv]
  unfold fitTail
  rw [hfd.honest.prev_next h.split, hfd.honest.device f hmem, h.tail hfd.honest]
  cases hz : pre.getLast? with
  | none => rfl
  | some z =>
    exact if_pos ⟨rfl, hfd.honest.lt_of_split h.split (mem_of_getLast? hz) mem_cons_self⟩

theorem classify_later (h : Fed start d chain pre (f :: post) fed log) (he : e ∈ post)
    (hadv : advertised ≠ some e.cursor) : classify log e advertised = .gap := by
  have hrest : e ∈ f :: post := mem_cons_of_mem _ he
  have hmem := h.mem_chain hrest
  obtain ⟨p, hp, hprev⟩ := hfd.honest.prev_later h.split he
  have hunseen : log.entryExists p.entryHash = false := h.not_exists hfd.honest hfd.nothing hp
  rw [classify_eq hfd h hmem hadv]
  unfold fitTail
  rw [hprev, hfd.honest.device e hmem, h.tail hfd.honest]
  cases hz : pre.getLast? with
  | none => simp only [Option.map_none, hunseen, Bool.false_eq_true, if_false]
  | some z =>
    have hzmem := mem_of_getLast? hz
    have hlt : z.lamport < e.lamport := hfd.honest.lt_of_split h.split hzmem hrest
    have hne : p.entryHash ≠ z.cursor.entryHash := by
      intro heq
      have hlt' := hfd.honest.lt_of_split h.split hzmem hp
      rw [hfd.honest.apart p (h.mem_chain hp) z (h.split ▸ mem_append_left _ hzmem) heq] at hlt'
      omega
    simp only [Option.map_some]
    rw [if_neg fun hboth => hne hboth.1, if_neg (by simp [cursor]; omega), hunseen]
    rfl

theorem retain_eq (h : Fed start d chain pre rest fed log) (he : e ∈ rest) (hnot : e ∉ log.gapped) :
    retainGappedEntry log e = (true, { log with gapped := log.gapped ++ [e] }) := by
  have hdev := hfd.honest.device e (h.mem_chain he)
  have hsub : e :: (log.gapped.filter fun g => g.device = d) ⊆ chain := by
    intro g hg
    rcases mem_cons.mp hg with rfl | hg
    · exact h.mem_chain he
    · obtain ⟨hg, hgd⟩ := mem_filter.mp hg
      exact h.mem_chain (h.held_own hg (of_decide_eq_true hgd)).1
  have hnodup : (e :: (log.gapped.filter fun g => g.device = d)).Nodup :=
    nodup_cons.mpr ⟨fun hg => hnot (mem_of_mem_filter hg), h.once⟩
  have hlen := (subperm_of_subset hnodup hsub).length_le
  have hroom := hfd.length
  rw [length_cons] at hlen
  unfold retainGappedEntry
  simp only [hdev]
  rw [if_neg (by omega)]

end Accept

/-! ## 4. One entry ingested -/

theorem ingestOne_next (hfd : Feedable ctx start d chain)
    (h : Fed start d chain pre (f :: post) fed σ.log) (hnot : f ∉ σ.log.gapped)
    (hadv : advertised ≠ some f.cursor) :
    ∃ outcome σ', ingestOne ctx σ f advertised = .ok (outcome, some ⟨f.entryHash, f.prevHash⟩, σ') ∧
      Fed start d chain (pre ++ [f]) post (f :: fed) σ'.log := by
  have hf : f ∈ f :: post := mem_cons_self
  have hex := h.not_exists hfd.honest hfd.nothing hf
  have hgap : ¬ σ.log.gappedEntryExists f.entryHash = true := fun hg =>
    hnot ((h.gapped_iff hfd.honest hf).mp hg)
  obtain ⟨hlt, hacc⟩ := accept_eq hfd h (h.mem_chain hf) hadv
  rw [hex, if_neg Bool.false_ne_true, if_neg hgap] at hacc
  have hfit : acceptFit ctx.acceptCtx σ.log f advertised hlt = storeEntry ctx.acceptCtx σ.log f hlt := by
    unfold acceptFit
    rw [classify_next hfd h hadv]
  rw [hfit] at hacc
  obtain ⟨ha, hfl, ht, hg, hels⟩ := storeEntry_eq ctx.acceptCtx σ.log f hlt
  obtain ⟨outcome, σ', hone, hsame, -⟩ := ingestOne_of_accept hacc
  rw [if_pos (storedOutcome_stores ctx.acceptCtx f hlt)] at hone
  exact ⟨outcome, σ', hone, (h.store hfd.honest hnot ha hfl ht hg hels).same hsame⟩

theorem ingestOne_other (hfd : Feedable ctx start d chain)
    (h : Fed start d chain pre rest fed σ.log) (he : e ∈ chain)
    (hother : ∀ f, rest.head? = some f → e = f → e ∈ σ.log.gapped)
    (hadv : advertised ≠ some e.cursor) :
    ∃ outcome σ', ingestOne ctx σ e advertised = .ok (outcome, none, σ') ∧
      Fed start d chain pre rest (e :: fed) σ'.log := by
  obtain ⟨hlt, hacc⟩ := accept_eq hfd h he hadv
  rw [← h.split] at he
  rcases mem_append.mp he with hpre | hrest
  · rw [h.exists_of_stored hpre, if_pos rfl] at hacc
    obtain ⟨outcome, σ', hone, hsame, -⟩ := ingestOne_of_accept hacc
    have hagain := h.again fun hrest =>
      absurd (hfd.honest.lt_of_split h.split hpre hrest) (lt_irrefl _)
    exact ⟨outcome, σ', hone, hagain.same hsame⟩
  · rw [h.not_exists hfd.honest hfd.nothing hrest, if_neg Bool.false_ne_true] at hacc
    by_cases hheld : e ∈ σ.log.gapped
    · rw [if_pos ((h.gapped_iff hfd.honest hrest).mpr hheld)] at hacc
      obtain ⟨outcome, σ', hone, hsame, -⟩ := ingestOne_of_accept hacc
      exact ⟨outcome, σ', hone, (h.again fun _ => hheld).same hsame⟩
    rw [if_neg fun hg => hheld ((h.gapped_iff hfd.honest hrest).mp hg)] at hacc
    -- it is not the next one, so its predecessor is missing
    obtain ⟨f, post, rfl⟩ := exists_cons_of_ne_nil (ne_nil_of_mem hrest)
    have hpost : e ∈ post := by
      rcases mem_cons.mp hrest with rfl | hpost
      · exact absurd (hother e rfl rfl) hheld
      · exact hpost
    have hfit : acceptFit ctx.acceptCtx σ.log e advertised hlt =
        (.gapRetained, { σ.log with gapped := σ.log.gapped ++ [e] }) := by
      unfold acceptFit
      rw [classify_later hfd h hpost hadv]
      simp only [retain_eq hfd h hrest hheld, if_true]
    rw [hfit] at hacc
    obtain ⟨outcome, σ', hone, hsame, -⟩ := ingestOne_of_accept hacc
    exact ⟨outcome, σ', hone, (h.hold hrest hheld).same hsame⟩

/-! ## 5. Sweeps spare the chain -/

/-- Held entries gone, none of the chain among them. -/
def Spared (chain : List VerifiedEntry) (log log' : ChainLog) : Prop :=
  Thinned log log' ∧ ∀ e ∈ log.gapped, e ∈ chain → e ∈ log'.gapped

theorem Spared.refl (log : ChainLog) : Spared chain log log := ⟨.refl log, fun _ he _ => he⟩

theorem Spared.trans (h : Spared chain log₁ log₂) (h' : Spared chain log₂ log₃) :
    Spared chain log₁ log₃ :=
  ⟨h.1.trans h'.1, fun e he hc => h'.2 e (h.2 e he hc) hc⟩

theorem Fed.spared (h : Fed start d chain pre rest fed log) (hs : Spared chain log log') :
    Fed start d chain pre rest fed log' := by
  obtain ⟨⟨held, rfl, hsub⟩, hkeep⟩ := hs
  exact { h with
    held := fun e he => h.held e (hsub.subset he)
    kept := fun e he hf => hkeep e (h.kept e he hf) (h.mem_chain he)
    once := h.once.sublist (hsub.filter _) }

theorem Fed.foreign_of_prev (h : Fed start d chain pre rest fed log)
    (hc : HonestChain stream d chain) (hg : g ∈ log.gapped) (hp : g.prevHash = some parent)
    (hno : ∀ c ∈ chain, c.entryHash ≠ parent) : ∀ c ∈ chain, c.entryHash ≠ g.entryHash := by
  rcases h.held g hg with ⟨hrest, -⟩ | ⟨-, hne⟩
  · obtain ⟨p, hmem, heq⟩ := hc.prev_mem (h.mem_chain hrest) hp
    exact absurd heq (hno p hmem)
  · exact hne

theorem sweepTurn_spared {w w' : Sweep} (h : Fed start d chain pre rest fed w.log)
    (hc : HonestChain stream d chain) (hoff : ∀ x ∈ w.worklist, ∀ c ∈ chain, c.entryHash ≠ x)
    (ht : sweepTurn w = .inl w') :
    Spared chain w.log w'.log ∧ ∀ x ∈ w'.worklist, ∀ c ∈ chain, c.entryHash ≠ x := by
  unfold sweepTurn at ht
  split at ht
  · cases ht
  rename_i parent others hw
  cases ht
  have hchild : ∀ x ∈ (w.log.gapped.filter fun e => e.prevHash = some parent).map (·.entryHash),
      ∀ c ∈ chain, c.entryHash ≠ x := by
    intro x hx
    obtain ⟨g, hg, rfl⟩ := mem_map.mp hx
    obtain ⟨hg, hp⟩ := mem_filter.mp hg
    exact h.foreign_of_prev hc hg (of_decide_eq_true hp)
      (hoff parent (by rw [hw]; exact mem_cons_self))
  refine ⟨⟨⟨_, rfl, filter_sublist⟩, fun e he hmem => ?_⟩, fun x hx => ?_⟩
  · exact mem_filter.mpr ⟨he, decide_eq_true fun hx => hchild _ hx e hmem rfl⟩
  · rcases mem_append.mp hx with hx | hx
    · exact hchild x (mem_reverse.mp hx)
    · exact hoff x (by rw [hw]; exact mem_cons_of_mem _ hx)

theorem discardGappedDescendants_spared (h : Fed start d chain pre rest fed log)
    (hc : HonestChain stream d chain) (hoff : ∀ c ∈ chain, c.entryHash ≠ root) :
    Spared chain log (discardGappedDescendants log root).2 := by
  obtain ⟨r, hr⟩ := Option.isSome_iff_exists.mp (sweep_isSome log root)
  unfold discardGappedDescendants
  rw [hr]
  obtain ⟨w, ⟨hw, -⟩, hout⟩ := loop_rule
    (fun w => Spared chain log w.log ∧ ∀ x ∈ w.worklist, ∀ c ∈ chain, c.entryHash ≠ x)
    (fun w w' hi ht => by
      obtain ⟨hs, hoff'⟩ := sweepTurn_spared (h.spared hi.1) hc hi.2 ht
      exact ⟨hi.1.trans hs, hoff'⟩)
    ⟨.refl log, fun x hx => by rw [mem_singleton.mp hx]; exact hoff⟩ hr
  unfold sweepTurn at hout
  split at hout
  · cases hout
    exact hw
  · cases hout

theorem discardForeignChainCitations_spared (h : Fed start d chain pre rest fed log)
    (hc : HonestChain stream d chain) (hash : EntryHash) :
    Spared chain log (discardForeignChainCitations log d hash).2 := by
  unfold discardForeignChainCitations
  refine List.foldlRecOn (motive := fun acc : Nat × ChainLog => Spared chain log acc.2) _ _
    (.refl log) ?_
  intro acc hacc citation hmem
  obtain ⟨hheld, hboth⟩ := mem_filter.mp hmem
  have hdev : citation.device ≠ d := (of_decide_eq_true hboth).2
  have hoff : ∀ c ∈ chain, c.entryHash ≠ citation.entryHash := by
    rcases h.held citation hheld with ⟨hrest, -⟩ | ⟨-, hne⟩
    · exact absurd (hc.device _ (h.mem_chain hrest)) hdev
    · exact hne
  have hdrop : Spared chain acc.2 (acc.2.dropGapped citation.entryHash) :=
    ⟨thinned_dropGapped _ _, fun e he hc' =>
      mem_filter.mpr ⟨he, decide_eq_true (hoff e hc')⟩⟩
  exact (hacc.trans hdrop).trans
    (discardGappedDescendants_spared (h.spared (hacc.trans hdrop)) hc hoff)

/-! ## 6. Promotion -/

section Drain

variable {promoted : List IngestOutcome}

theorem Fed.split_last (h : Fed start d chain (pre ++ [z]) rest fed σ.log) :
    pre ++ z :: rest = chain := by
  rw [← h.split, append_assoc]
  rfl

theorem Fed.no_sibling (h : Fed start d chain (pre ++ [z]) rest fed σ.log)
    (hc : HonestChain ctx.scope.streamId d chain) (hprev : z.prevHash = some prev) :
    ∀ e, ¬ HeldChild σ.log d prev e := by
  rintro e ⟨he, hdev, heq⟩
  have hz : z ∈ chain := h.split_last ▸ mem_append_right _ mem_cons_self
  have hrest := (h.held_own he hdev).1
  obtain ⟨p, hp, rfl⟩ := hc.prev_mem hz hprev
  obtain rfl := hc.child_unique hp hz hprev (h.mem_chain hrest) heq
  exact lt_irrefl _ (hc.lt_of_split h.split (mem_append_right _ mem_cons_self) hrest)

theorem Fed.child_eq (h : Fed start d chain (pre ++ [z]) (f :: post) fed σ.log)
    (hc : HonestChain ctx.scope.streamId d chain) (he : e ∈ σ.log.gapped) (hdev : e.device = d)
    (hprev : e.prevHash = some z.entryHash) : e = f := by
  have hz : z ∈ chain := h.split_last ▸ mem_append_right _ mem_cons_self
  refine hc.child_unique hz (h.mem_chain mem_cons_self) ?_ (h.mem_chain (h.held_own he hdev).1) hprev
  rw [hc.prev_next h.split, getLast?_append_of_ne_nil _ (by simp)]
  rfl

theorem drainTurn_over {a : Arrival} (h : ∀ e, ¬ HeldChild a.store.log d parent e) :
    drainTurn ctx d parent a = .inr (.ok a) := by
  have hturn := drainTurn_turns ctx d parent a
  generalize drainTurn ctx d parent a = r at hturn
  cases hturn with
  | empty => rfl
  | fails hc | accepts hc | refuses hc => exact absurd hc (h _)

theorem drainChildren_nothing (hb : 1 ≤ bound) (hnone : ∀ e, ¬ HeldChild σ.log d parent e) :
    drainChildren bound ctx d parent promoted σ = some (.ok ⟨none, promoted, σ⟩) := by
  obtain ⟨n, rfl⟩ := Nat.exists_eq_add_of_le' hb
  exact loop_succ_inr (drainTurn_over hnone) n

theorem drainChildren_next (hfd : Feedable ctx start d chain)
    (h : Fed start d chain (pre ++ [z]) (f :: post) fed σ.log) (hheld : f ∈ σ.log.gapped)
    (hb : 2 ≤ bound) :
    ∃ promoted' σ', drainChildren bound ctx d z.entryHash promoted σ =
        some (.ok ⟨some ⟨f.entryHash, f.prevHash⟩, promoted', σ'⟩) ∧
      Fed start d chain (pre ++ [z] ++ [f]) post fed σ'.log := by
  have hf : f ∈ f :: post := mem_cons_self
  have hdev := hfd.honest.device f (h.mem_chain hf)
  have hprev : f.prevHash = some z.entryHash := by
    rw [hfd.honest.prev_next h.split, getLast?_append_of_ne_nil _ (by simp)]
    rfl
  have hchild : nearestChild σ.log d z.entryHash = some f := by
    rcases nearestChild_found σ.log d z.entryHash with ⟨-, hno⟩ | ⟨e, hn, he, hed, hep⟩
    · exact absurd ⟨hheld, hdev, hprev⟩ (hno f)
    · rw [hn, h.child_eq hfd.honest he hed hep]
  have hout : f ∉ (σ.log.dropGapped f.entryHash).gapped := fun hmem =>
    absurd rfl (of_decide_eq_true (mem_filter.mp hmem).2)
  have hfed : f ∈ fed := (h.held_own hheld hdev).2
  have hadv : (none : Option ChainCursor) ≠ some f.cursor := nofun
  obtain ⟨outcome, σ', hone, hstored⟩ := ingestOne_next
    (σ := { σ with log := σ.log.dropGapped f.entryHash }) hfd (h.drop hfd.honest hf) hout hadv
  have hfed' : Fed start d chain (pre ++ [z] ++ [f]) post fed σ'.log := by
    refine hstored.congr_fed fun e => ?_
    rw [mem_cons, mem_filter, decide_eq_true_eq]
    constructor
    · intro he
      by_cases heq : e = f
      · exact .inl heq
      · exact .inr ⟨he, heq⟩
    · rintro (rfl | ⟨he, -⟩)
      · exact hfed
      · exact he
  obtain ⟨n, rfl⟩ := Nat.exists_eq_add_of_le' hb
  refine ⟨promoted ++ [outcome], σ', ?_, hfed'⟩
  have hfirst : drainTurn ctx d z.entryHash ⟨none, promoted, σ⟩ =
      .inl ⟨some ⟨f.entryHash, f.prevHash⟩, promoted ++ [outcome], σ'⟩ := by
    unfold drainTurn takeGappedChild
    rw [hchild]
    simp only [Option.map_some, hone]
  unfold drainChildren
  rw [loop_succ_inl hfirst]
  exact loop_succ_inr (drainTurn_over (hfed'.no_sibling hfd.honest hprev)) n

theorem ingestTurn_fed (promoted : List IngestOutcome) (hfd : Feedable ctx start d chain)
    (h : Fed start d chain (pre ++ [z]) rest fed σ.log) (hb : 2 ≤ bound) :
    (∃ promoted' σ', ingestTurn bound ctx d ⟨some ⟨z.entryHash, z.prevHash⟩, promoted, σ⟩ =
        .inl ⟨none, promoted', σ'⟩ ∧ Fed start d chain (pre ++ [z]) rest fed σ'.log ∧
      ∀ f ∈ rest.head?, f ∉ fed) ∨
    ∃ f post promoted' σ', rest = f :: post ∧
      ingestTurn bound ctx d ⟨some ⟨z.entryHash, z.prevHash⟩, promoted, σ⟩ =
        .inl ⟨some ⟨f.entryHash, f.prevHash⟩, promoted', σ'⟩ ∧
      Fed start d chain (pre ++ [z] ++ [f]) post fed σ'.log := by
  have hswept := h.spared (discardForeignChainCitations_spared h hfd.honest z.entryHash)
  set log' := (discardForeignChainCitations σ.log d z.entryHash).2 with hlog'
  have hturn : ∀ next : Arrival, drainChildren bound ctx d z.entryHash
      (promoted ++ List.replicate (discardForeignChainCitations σ.log d z.entryHash).1
        .abandonedBehindFork) { σ with log := log' } = some (.ok next) →
      ingestTurn bound ctx d ⟨some ⟨z.entryHash, z.prevHash⟩, promoted, σ⟩ = .inl next := by
    intro next hnext
    unfold ingestTurn
    cases hp : z.prevHash with
    | none => simp only [← hlog', hnext]
    | some prev =>
      have hsiblings : drainChildren bound ctx d prev promoted σ = some (.ok ⟨none, promoted, σ⟩) :=
        drainChildren_nothing (by omega) (h.no_sibling hfd.honest hp)
      simp only [hsiblings, ← hlog', hnext]
  by_cases hnext : ∃ f post, rest = f :: post ∧ f ∈ log'.gapped
  · obtain ⟨f, post, rfl, hheld⟩ := hnext
    obtain ⟨promoted', σ', hdrain, hfed⟩ := drainChildren_next (σ := { σ with log := log' }) hfd hswept
      hheld hb
    exact .inr ⟨f, post, promoted', σ', rfl, hturn _ hdrain, hfed⟩
  · -- nothing held follows the tail
    have hno : ∀ e, ¬ HeldChild log' d z.entryHash e := by
      rintro e ⟨he, hdev, hprev⟩
      cases rest with
      | nil => cases (hswept.held_own he hdev).1
      | cons f post =>
        have heq := Fed.child_eq (σ := { σ with log := log' }) hswept hfd.honest he hdev hprev
        exact hnext ⟨f, post, rfl, heq ▸ he⟩
    refine .inl ⟨_, { σ with log := log' }, hturn _ (drainChildren_nothing (by omega) hno), hswept,
      fun f hf hfed => ?_⟩
    cases rest with
    | nil => cases hf
    | cons g post =>
      cases hf
      exact hnext ⟨f, post, rfl, hswept.kept f mem_cons_self hfed⟩

/-- **The arrival of an accepted entry promotes up to the first entry that was not fed.** -/
theorem ingestLoop_fed (promoted : List IngestOutcome) (hfd : Feedable ctx start d chain)
    (hb : 2 ≤ bound) (h : Fed start d chain (pre ++ [z]) rest fed σ.log) (hn : rest.length + 2 ≤ n) :
    ∃ a pre' rest', loop (ingestTurn bound ctx d) n ⟨some ⟨z.entryHash, z.prevHash⟩, promoted, σ⟩ =
        some (some (.ok a)) ∧
      Fed start d chain pre' rest' fed a.store.log ∧ ∀ f ∈ rest'.head?, f ∉ fed := by
  induction n generalizing rest pre z promoted σ with
  | zero => omega
  | succ n ih =>
    rcases ingestTurn_fed promoted hfd h hb with
      ⟨promoted', σ', hturn, hfed, hhead⟩ | ⟨f, post, promoted', σ', rfl, hturn, hfed⟩
    · rw [loop_succ_inl hturn]
      obtain ⟨m, rfl⟩ : ∃ m, n = m + 1 := ⟨n - 1, by omega⟩
      exact ⟨⟨none, promoted', σ'⟩, _, rest, loop_succ_inr rfl m, hfed, hhead⟩
    · rw [loop_succ_inl hturn]
      rw [length_cons] at hn
      exact ih promoted' hfed (by omega)

end Drain

/-! ## 7. Feeding -/

/-- Ingest the entries one by one, each with the floor it is offered under. -/
def feedAll (bound : Nat) (ctx : SyncCtx) (σ : Replica) :
    List (VerifiedEntry × Option ChainCursor) → Option (Except String Replica)
  | [] => some (.ok σ)
  | (v, advertised) :: feed =>
    match ingest bound ctx σ v advertised with
    | none => none
    | some (.error why) => some (.error why)
    | some (.ok (_, σ')) => feedAll bound ctx σ' feed

section Feed

variable (hfd : Feedable ctx start d chain) (hgates : ctx.gates = .ok ())
  (hb : chain.length + 2 ≤ bound)

include hfd hgates hb

theorem ingest_fed (h : Fed start d chain pre rest fed σ.log) (hhead : ∀ f ∈ rest.head?, f ∉ fed)
    (he : e ∈ chain) (hadv : advertised ≠ some e.cursor) :
    ∃ report σ' pre' rest', ingest bound ctx σ e advertised = some (.ok (report, σ')) ∧
      Fed start d chain pre' rest' (e :: fed) σ'.log ∧ ∀ f ∈ rest'.head?, f ∉ e :: fed := by
  have hdev := hfd.honest.device e he
  by_cases hnext : rest.head? = some e
  · -- the next entry: it was not fed, so it is not held
    obtain ⟨post, rfl⟩ := head?_eq_some_iff.mp hnext
    have hnot : e ∉ σ.log.gapped := fun hheld => hhead e rfl (h.held_own hheld hdev).2
    obtain ⟨outcome, σ₁, hone, hstored⟩ := ingestOne_next hfd h hnot hadv
    have hlen : post.length + 2 ≤ bound := by
      have := congrArg List.length h.split
      simp only [length_append, length_cons] at this
      omega
    have hb2 : 2 ≤ bound := by omega
    obtain ⟨a, pre', rest', hloop, hfed, hhead'⟩ := ingestLoop_fed [] hfd hb2 hstored hlen
    refine ⟨⟨outcome, a.promoted⟩, a.store, pre', rest', ?_, hfed, hhead'⟩
    unfold ingest
    rw [hgates, hone]
    simp only [hdev, hloop, Option.join_some]
  · obtain ⟨outcome, σ₁, hone, hfed⟩ := ingestOne_other hfd h he
      (fun f hf heq => absurd (heq ▸ hf) hnext) hadv
    obtain ⟨n, rfl⟩ : ∃ n, bound = n + 1 := ⟨bound - 1, by omega⟩
    have hloop : loop (ingestTurn (n + 1) ctx d) (n + 1) ⟨none, [], σ₁⟩ =
        some (some (.ok ⟨none, [], σ₁⟩)) := loop_succ_inr rfl n
    refine ⟨⟨outcome, []⟩, σ₁, pre, rest, ?_, hfed, fun f hf hmem => ?_⟩
    · unfold ingest
      rw [hgates, hone]
      simp only [hdev, hloop, Option.join_some]
    · rcases mem_cons.mp hmem with rfl | hmem
      · exact hnext hf
      · exact hhead f hf hmem

theorem feedAll_fed {feed : List (VerifiedEntry × Option ChainCursor)}
    (hfeed : ∀ v ∈ feed, v.1 ∈ chain) (hadv : ∀ v ∈ feed, v.2 ≠ some v.1.cursor)
    (h : Fed start d chain pre rest fed σ.log) (hhead : ∀ f ∈ rest.head?, f ∉ fed) :
    ∃ σ' pre' rest' fed', feedAll bound ctx σ feed = some (.ok σ') ∧
      Fed start d chain pre' rest' fed' σ'.log ∧ (∀ f ∈ rest'.head?, f ∉ fed') ∧
      ∀ e, e ∈ fed ∨ e ∈ feed.map Prod.fst → e ∈ fed' := by
  induction feed generalizing σ pre rest fed with
  | nil => exact ⟨σ, pre, rest, fed, rfl, h, hhead, by simp⟩
  | cons v feed ih =>
    obtain ⟨v, advertised⟩ := v
    obtain ⟨report, σ₁, pre₁, rest₁, hing, hfed, hhead₁⟩ := ingest_fed hfd hgates hb h hhead
      (hfeed _ mem_cons_self) (hadv _ mem_cons_self)
    obtain ⟨σ', pre', rest', fed', hall, hfed', hhead', hsub⟩ :=
      ih (forall_mem_cons.mp hfeed).2 (forall_mem_cons.mp hadv).2 hfed hhead₁
    refine ⟨σ', pre', rest', fed', ?_, hfed', hhead', fun e he => hsub e ?_⟩
    · rw [feedAll, hing]
      exact hall
    · rw [map_cons, mem_cons] at he
      rwa [mem_cons, or_assoc, or_left_comm]

end Feed

/-- **Delivery order does not matter.** The entries of an honest chain, fed in any order and with any
    repetition to a store that holds nothing of it, end up stored: the chain of the device is exactly
    that chain, its tail is the last entry, and no entry of the device is held. -/
theorem delivery_order_independent (bound : Nat) (ctx : SyncCtx) (σ : Replica) (d : DeviceFingerprint)
    (chain : List VerifiedEntry) (feed : List (VerifiedEntry × Option ChainCursor))
    (hfd : Feedable ctx σ.log d chain) (hgates : ctx.gates = .ok ())
    (hfeed : ∀ e, e ∈ chain ↔ e ∈ feed.map Prod.fst) (hadv : ∀ v ∈ feed, v.2 ≠ some v.1.cursor)
    (hb : chain.length + 2 ≤ bound) :
    ∃ σ', feedAll bound ctx σ feed = some (.ok σ') ∧ σ'.log.chainOf d = chain ∧
      σ'.log.chainTail d = chain.getLast?.map cursor ∧
      ∀ e ∈ σ'.log.gapped, e.device ≠ d ∧ ∀ c ∈ chain, c.entryHash ≠ e.entryHash := by
  obtain ⟨σ', pre, rest, fed, hall, hfed, hhead, hmem⟩ := feedAll_fed hfd hgates hb
    (fun v hv => (hfeed v.1).mpr (mem_map_of_mem hv)) hadv (fed_nil hfd.nothing) nofun
  -- an entry left over would start with one that was not fed
  have hrest : rest = [] := by
    cases rest with
    | nil => rfl
    | cons f post =>
      exact absurd (hmem f (.inr ((hfeed f).mp (hfed.mem_chain mem_cons_self)))) (hhead f rfl)
  subst hrest
  have hpre : pre = chain := by
    rw [← hfed.split, append_nil]
  subst hpre
  refine ⟨σ', hall, hfed.stored, hfed.tail hfd.honest, fun e he => ?_⟩
  rcases hfed.held e he with ⟨hr, -⟩ | hforeign
  · cases hr
  · exact hforeign

/-- Three summaries of device 7. -/
def noteChain : List VerifiedEntry :=
  [noteUpsert 100 0 none "a", noteUpsert 101 1 (some 100) "b", noteUpsert 102 2 (some 101) "c"]

theorem honest_noteChain : HonestChain noteCtx.scope.streamId 7 noteChain where
  stream := by decide
  device := by decide
  genesis := by decide
  linked := by simp [noteChain, noteUpsert, Links]
  rises := by
    unfold Rises
    decide
  apart := by decide

theorem feedable_noteChain : Feedable noteCtx empty 7 noteChain where
  honest := honest_noteChain
  nothing := ⟨nofun, nofun, rfl, rfl, fun _ _ => ⟨rfl, rfl⟩⟩
  writer := rfl
  advance := by
    unfold WithinAdvance
    decide
  length := by decide

/-- The last one comes first, and comes again. -/
theorem delivery_order_independent_notes :
    ∃ σ', feedAll 5 noteCtx Replica.empty
        [(noteUpsert 102 2 (some 101) "c", none), (noteUpsert 100 0 none "a", none),
          (noteUpsert 101 1 (some 100) "b", none), (noteUpsert 102 2 (some 101) "c", none)] =
        some (.ok σ') ∧ σ'.log.chainOf 7 = noteChain := by
  obtain ⟨σ', hall, hchain, -⟩ := delivery_order_independent 5 noteCtx Replica.empty 7 noteChain
    [(noteUpsert 102 2 (some 101) "c", none), (noteUpsert 100 0 none "a", none),
      (noteUpsert 101 1 (some 100) "b", none), (noteUpsert 102 2 (some 101) "c", none)]
    feedable_noteChain rfl (by simp [noteChain]) (by simp) (by decide)
  exact ⟨σ', hall, hchain⟩

end RagRat.TableSync
