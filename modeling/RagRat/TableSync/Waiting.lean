/-
  File:      RagRat/TableSync/Waiting.lean
  Subject:   WHAT A STORE HOLDS FOR A PREDECESSOR, AND THAT AN ARRIVAL ENDS. Of chains that need not be
             honest: their signers may have given one entry two successors.

  * `Waiting` -- what is held in every reached store;
  * `RootsUnder` -- what keeps an arrival from ending: an entry that becomes the root of its chain, or
    restores its witness, cites an entry the store does not have. A held entry above it that cites the
    same one is taken out, held again, and taken out again, without end (`arrival_never_ends`);
  * `arrival_ends`, `ingest_ok` -- every other arrival ends, and without an error if it passes the
    checks.
-/
import RagRat.TableSync.Upheld
import Mathlib.Data.Finset.Card

namespace RagRat.TableSync

open List
open Lib.Ascending
open Lib.Loop (loop loop_ends loop_never loop_succ_inr)
open List.Subset

variable {log log' log₁ log₂ log₃ : ChainLog} {d device : DeviceFingerprint} {ctx : SyncCtx}
  {v child : VerifiedEntry} {advertised : Option ChainCursor} {parent prev hash : EntryHash}
  {stream : StreamId} {outcome again : IngestOutcome} {accepted : Option AcceptedEntry}
  {new authored : List VerifiedEntry} {n bound : Nat} {w c t : ChainCursor} {σ σ' σ₁ : Replica}
  {sc : Scope} {a a' : Arrival}

/-! ## 1. The clock of a stream -/

/-- The stream's clock, as an arrival is measured against it. -/
def ChainLog.clock (log : ChainLog) : Nat := log.streamMaxLamport.getD 0

theorem witness_le_clock (h : log.chainWitness d = some w) : w.lamport ≤ log.clock := by
  obtain ⟨highest, hmax, hle⟩ := max_of_mem (mem_append_right (log.entries.map (·.lamport))
    (mem_map_of_mem (mem_of_chainWitness h)))
  unfold ChainLog.clock
  rw [hmax]
  exact hle

/-- Every tip of the log is the witness of its chain. -/
def Keyed (log : ChainLog) : Prop := (log.chainTips.map (·.1)).Nodup

theorem Keyed.witness (h : Keyed log) (hm : (d, c) ∈ log.chainTips) : log.chainWitness d = some c :=
  lookup_eq_some_of_mem h hm

theorem Keyed.raiseTip (h : Keyed log) (v : VerifiedEntry) : Keyed (log.raiseTip v) := by
  unfold Keyed at h ⊢
  unfold ChainLog.raiseTip
  split
  · split
    · have hkeys : (log.chainTips.map fun dt => if dt.1 = v.device then (dt.1, v.cursor) else dt).map
          (·.1) = log.chainTips.map (·.1) := by
        rw [map_map]
        refine map_congr_left fun dt _ => ?_
        simp only [Function.comp_apply]
        split <;> rfl
      exact hkeys ▸ h
    · exact h
  · rename_i hnone
    rw [map_append]
    refine nodup_append.mpr ⟨h, nodup_singleton _, ?_⟩
    rintro x hx y hy rfl
    obtain ⟨dt, hdt, rfl⟩ := mem_map.mp hx
    have hself : dt.1 = v.device := mem_singleton.mp hy
    have hkeyed : Keyed log := h
    have hsome := hkeyed.witness hdt
    rw [hself, hnone] at hsome
    cases hsome

theorem ChainStep.keyed (h : ChainStep log log') (hk : Keyed log) : Keyed log' := by
  unfold Keyed
  cases h with
  | kept _ _ ht | compacted _ _ _ _ _ _ _ ht | purged _ _ ht => exact ht ▸ hk
  | stored v _ _ _ ht | adopted v _ _ _ ht => exact ht ▸ hk.raiseTip v

theorem ChainStep.clock_le (hs : ∀ d, Sound log d) (hk : Keyed log) (h : ChainStep log log') :
    log.clock ≤ log'.clock := by
  have hwit : ∀ d w, log.chainWitness d = some w → w.lamport ≤ log'.clock := by
    intro d w hw
    obtain ⟨w', hw', hor⟩ := h.witness_le hs hw
    have hle := witness_le_clock hw'
    rcases hor with rfl | hlt
    · exact hle
    · omega
  unfold ChainLog.clock ChainLog.streamMaxLamport
  cases hmax : (log.entries.map (·.lamport) ++ log.chainTips.map (·.2.lamport)).max? with
  | none => exact Nat.zero_le _
  | some m =>
    rcases mem_append.mp (max?_eq_some_iff.mp hmax).1 with hm | hm
    · obtain ⟨e, he, rfl⟩ := mem_map.mp hm
      obtain ⟨w, hw, hle⟩ := (hs e.device).le_witness
        (mem_filter.mpr ⟨mem_map_of_mem he, decide_eq_true rfl⟩)
      exact hle.trans (hwit _ w hw)
    · obtain ⟨⟨d, c⟩, hdt, rfl⟩ := mem_map.mp hm
      exact hwit d c (hk.witness hdt)

/-! ## 2. What is held -/

/-- **What a log holds**: entries that passed the checks of an arrival; where a purge took the
    chain, they lie above the witness and do not cite it. -/
structure Waiting (stream : StreamId) (log : ChainLog) : Prop where
  sound : ∀ d, Sound log d
  keyed : Keyed log
  fits : ∀ g ∈ log.gapped, g.streamId = stream ∧ g.lamport < maxEntryLamport ∧
    g.lamport ≤ log.clock + maxLamportAdvance
  waits : ∀ g ∈ log.gapped, log.chainTail g.device = none → ∀ w, log.chainWitness g.device = some w →
    w.lamport < g.lamport ∧ g.prevHash ≠ some w.entryHash

section Held

variable {ctx : AcceptCtx} {o : AcceptOutcome}

theorem ChainStep.of_tail_none (hs : ∀ d, Sound log d) (h : ChainStep log log')
    (hkept : ∀ e ∈ log.accepted, e.device = d → ∃ z ∈ log'.accepted, z.device = d)
    (ht : log'.chainTail d = none) :
    log.chainTail d = none ∧ log'.chainWitness d = log.chainWitness d := by
  have hsound' := h.sound hs d
  have hempty : ∀ z ∈ log'.accepted, z.device ≠ d := by
    intro z hz hd
    have hmem : z ∈ log'.chainOf d := mem_filter.mpr ⟨hz, decide_eq_true hd⟩
    rw [hsound'.chainOf_eq_nil ht] at hmem
    cases hmem
  have htail : log.chainTail d = none := by
    rw [chainTail_eq (hs d).rises]
    cases hc : log.chainOf d with
    | nil => rfl
    | cons e l =>
      have he : e ∈ log.chainOf d := hc ▸ mem_cons_self
      obtain ⟨hacc, hd⟩ := mem_filter.mp he
      obtain ⟨z, hz, hzd⟩ := hkept e hacc (of_decide_eq_true hd)
      exact absurd hzd (hempty z hz)
  refine ⟨htail, ?_⟩
  cases h with
  | kept _ _ ht | compacted _ _ _ _ _ _ _ ht | purged _ _ ht => exact chainWitness_congr ht d
  | stored v _ ha _ ht | adopted v _ ha _ ht =>
    have hv : v ∈ log'.accepted := ha ▸ mem_append_right _ mem_cons_self
    exact chainWitness_raise_ne ht (hempty v hv)

theorem Waiting.step (h : Waiting stream log) (hstep : ChainStep log log')
    (hkept : ∀ d, ∀ e ∈ log.accepted, e.device = d → ∃ z ∈ log'.accepted, z.device = d)
    (hg : log'.gapped ⊆ log.gapped) : Waiting stream log' where
  sound := hstep.sound h.sound
  keyed := hstep.keyed h.keyed
  fits g hmem := by
    obtain ⟨hstream, hlt, hle⟩ := h.fits g (hg hmem)
    exact ⟨hstream, hlt, hle.trans (Nat.add_le_add_right (hstep.clock_le h.sound h.keyed) _)⟩
  waits g hmem ht w hw := by
    obtain ⟨ht', hw'⟩ := hstep.of_tail_none h.sound (hkept g.device) ht
    exact h.waits g (hg hmem) ht' w (hw' ▸ hw)

theorem Waiting.grown (h : Waiting stream log) (hstep : ChainStep log log')
    (ha : log.accepted ⊆ log'.accepted) (hg : log'.gapped ⊆ log.gapped) : Waiting stream log' :=
  h.step hstep (fun _ e he hd => ⟨e, ha he, hd⟩) hg

theorem Waiting.thinned (h : Waiting stream log) (ht : Thinned log log') : Waiting stream log' := by
  obtain ⟨held, rfl, hsub⟩ := ht
  exact h.grown (.kept rfl rfl rfl) (refl _) hsub.subset

theorem Waiting.same (h : Waiting stream log) (hs : SameChains log log') : Waiting stream log' :=
  h.grown hs.chainStep (hs.accepted ▸ refl _) (hs.gapped ▸ refl _)

theorem accept_ok (ctx : AcceptCtx) (log : ChainLog) (advertised : Option ChainCursor)
    (hstream : v.streamId = ctx.expectedStream) (hlt : v.lamport < maxEntryLamport)
    (hadv : v.lamport ≤ log.clock + maxLamportAdvance) :
    ∃ r, acceptRowEntry ctx log v advertised = .ok r := by
  unfold acceptRowEntry
  have hwithin : ¬ log.streamMaxLamport.getD 0 + maxLamportAdvance < v.lamport := not_lt.mpr hadv
  rw [if_neg (not_not.mpr hstream), dif_pos hlt]
  simp only [if_neg hwithin]
  repeat' split
  all_goals exact ⟨_, rfl⟩

theorem waits_of_gap (hfit : classify log v advertised = .gap) (ht : log.chainTail v.device = none)
    (hw : log.chainWitness v.device = some w) :
    w.lamport < v.lamport ∧ v.prevHash ≠ some w.entryHash := by
  have hfits := classified log v advertised
  rw [hfit] at hfits
  cases hfits with
  | follows hok => rcases hok with hok | hok <;> cases hok
  | gap prev hp _ hwit =>
    rw [hp, ne_eq, Option.some.injEq]
    exact hwit ht w hw

theorem Waiting.accept (h : Waiting stream log) (hstream : v.streamId = stream)
    (hlt : v.lamport < maxEntryLamport) (hadv : v.lamport ≤ log.clock + maxLamportAdvance)
    (hstep : AcceptStep ctx log v advertised o log') : Waiting stream log' := by
  have hchain := hstep.chainStep
  cases hstep with
  | held _ ha hf ht hg he =>
    have hheld : Waiting stream { log with gapped := log'.gapped } := by
      refine ⟨ChainStep.sound h.sound (.kept rfl rfl rfl), h.keyed, fun g hmem => ?_,
        fun g hmem ht w hw => ?_⟩
      · rcases hg g hmem with hold | ⟨rfl, -⟩
        · exact h.fits g hold
        · exact ⟨hstream, hlt, hadv⟩
      · rcases hg g hmem with hold | ⟨rfl, hfit⟩
        · exact h.waits g hold ht w hw
        · exact waits_of_gap hfit ht hw
    exact hheld.same ⟨ha, hf, ht, rfl, he⟩
  | stored _ _ _ _ ha _ _ hg | adopted _ _ _ _ ha _ _ hg =>
    exact h.grown hchain (ha ▸ subset_append_left _ _) fun g hmem => (hg g hmem).1

end Held

section Arrival

variable (h : Waiting stream σ.log) (hctx : ctx.scope.streamId = stream)

include h hctx

theorem Waiting.ingestOne (hone : ingestOne ctx σ v advertised = .ok (outcome, accepted, σ')) :
    Waiting stream σ'.log := by
  obtain ⟨o, log, hacc, hstep, -⟩ := accept_of_ingestOne hone
  obtain ⟨hstream, hlt, hadv⟩ := (acceptRowEntry_accepts hacc).1
  exact h.accept (hstream.trans hctx) hlt hadv hstep

theorem Waiting.promotes (hprom : Promotes ctx device σ σ') : Waiting stream σ'.log := by
  induction hprom with
  | refl => exact h
  | thin _ hthin ih => exact ih.thinned hthin
  | child _ _ _ hone ih => exact (ih.thinned (thinned_dropGapped _ _)).ingestOne hctx hone

theorem Waiting.ingest {report : IngestReport}
    (hi : ingest bound ctx σ v advertised = some (.ok (report, σ'))) : Waiting stream σ'.log := by
  obtain ⟨outcome, accepted, σ₁, hone, hprom, -⟩ := ingest_promotes hi
  exact (h.ingestOne hctx hone).promotes hctx hprom

end Arrival

theorem waiting_empty (stream : StreamId) : Waiting stream StreamStore.empty.log :=
  ⟨sound_empty _, nodup_nil, nofun, nofun⟩

theorem Waiting.op {σ σ' : StreamStore} {op : StreamOp} (h : Waiting sc.streamId σ.log)
    (hs : streamStep sc σ op = some (σ', new)) : Waiting sc.streamId σ'.log := by
  cases streamStep_stepped h.sound hs with
  | dropped | waits => exact h
  | @ingested _ ctx _ _ _ _ hing =>
    rw [settleCoverage_toReplica]
    have hctx : { ctx with scope := sc }.scope.streamId = sc.streamId := rfl
    exact h.ingest hctx hing
  | authored hv =>
    exact h.grown (hv.touch (fun _ => True) trivial).chain (hv.accepted ▸ subset_append_left _ _)
      (hv.gapped ▸ refl _)
  | replayed _ hsame => exact h.same hsame
  | compacted _ hcomp =>
    obtain ⟨hstep, -, -, hgapped, -, -, hkeeps⟩ := compactChainPrefix_chainStep hcomp
    exact h.step hstep (fun d e he hd => hd ▸ hkeeps e he) hgapped
  | plain hop hkind =>
    cases op with
    | purge =>
      cases hop
      exact ⟨ChainStep.sound h.sound (.purged rfl rfl rfl), h.keyed, nofun, nofun⟩
    | localWork table rows published =>
      cases hop
      exact h
    | expire keep =>
      cases hop
      exact h.thinned ⟨_, rfl, filter_sublist⟩
    | otherStreams elsewhere =>
      cases hop
      exact h.grown (.kept rfl rfl rfl) (refl _) (refl _)
    | _ => cases hkind

theorem StreamReached.waiting {ok : StreamStore → StreamOp → Prop} {σ : StreamStore}
    (h : StreamReached sc ok σ authored) : Waiting sc.streamId σ.log := by
  induction h with
  | start => exact waiting_empty _
  | step _ op _ hs ih => exact ih.op hs

/-! ## 3. The held children of an entry -/

/-- How many entries are held: every turn of a drain takes one out. -/
def ChainLog.heldCount (log : ChainLog) : Nat := (log.gapped.map (·.entryHash)).toFinset.card

theorem heldCount_le (hg : log'.gapped ⊆ log.gapped) : log'.heldCount ≤ log.heldCount := by
  refine Finset.card_le_card fun x hx => ?_
  rw [mem_toFinset] at hx ⊢
  exact map_subset _ hg hx

theorem heldCount_lt (hmem : child ∈ log.gapped)
    (hg : log'.gapped ⊆ (log.dropGapped child.entryHash).gapped) :
    log'.heldCount < log.heldCount := by
  refine Finset.card_lt_card (Finset.ssubset_iff_of_subset ?_ |>.mpr ⟨child.entryHash, ?_, ?_⟩)
  · intro x hx
    rw [mem_toFinset] at hx ⊢
    exact map_subset _ (fun g hmem => mem_of_mem_filter (hg hmem)) hx
  · rw [mem_toFinset]
    exact mem_map_of_mem hmem
  · rw [mem_toFinset]
    intro hx
    obtain ⟨g, hmem', heq⟩ := mem_map.mp hx
    exact of_decide_eq_true (mem_filter.mp (hg hmem')).2 heq

theorem heldCount_le_succ (hg : ∀ g ∈ log'.gapped, g = v ∨ g ∈ log.gapped) :
    log'.heldCount ≤ log.heldCount + 1 := by
  refine (Finset.card_le_card fun x hx => ?_).trans (Finset.card_insert_le v.entryHash _)
  rw [mem_toFinset] at hx
  obtain ⟨g, hmem, rfl⟩ := mem_map.mp hx
  rcases hg g hmem with rfl | hold
  · exact Finset.mem_insert_self _ _
  · exact Finset.mem_insert_of_mem (mem_toFinset.mpr (mem_map_of_mem hold))

/-- The store settles the held children of `parent`: it has the parent, or they are not above the
    tail. -/
def Answers (log : ChainLog) (device : DeviceFingerprint) (parent : EntryHash) : Prop :=
  ∃ t, log.chainTail device = some t ∧ ∀ g ∈ log.gapped, g.device = device →
    g.prevHash = some parent → log.entryExists parent = true ∨ g.lamport ≤ t.lamport

theorem classify_ne_gap (ht : log.chainTail v.device = some t) (hprev : v.prevHash = some parent)
    (hknown : log.entryExists parent = true ∨ v.lamport ≤ t.lamport) :
    classify log v none ≠ .gap := by
  intro hfit
  have hfits := classified log v none
  rw [hfit] at hfits
  cases hfits with
  | follows hok => rcases hok with hok | hok <;> cases hok
  | gap prev hp htail =>
    obtain rfl := Option.some.inj (hprev.symm.trans hp)
    obtain ⟨hlt, -, hnew⟩ := htail t ht
    rcases hknown with hknown | hle
    · rw [hnew] at hknown
      cases hknown
    · exact absurd hle (not_le.mpr hlt)

/-- What a drain does to a log: the entries and the tails stay, and nothing new is held. -/
structure Grows (stream : StreamId) (log log' : ChainLog) : Prop where
  waiting : Waiting stream log'
  known : ∀ hash, log.entryExists hash = true → log'.entryExists hash = true
  tail : ∀ d t, log.chainTail d = some t → ∃ t', log'.chainTail d = some t' ∧ t.lamport ≤ t'.lamport
  held : log'.gapped ⊆ log.gapped

theorem Waiting.grows (h : Waiting stream log) : Grows stream log log :=
  ⟨h, fun _ h => h, fun _ t h => ⟨t, h, le_rfl⟩, refl _⟩

theorem Grows.trans (h : Grows stream log₁ log₂) (h' : Grows stream log₂ log₃) :
    Grows stream log₁ log₃ := by
  refine ⟨h'.waiting, fun hash hk => h'.known hash (h.known hash hk), fun d t ht => ?_,
    List.Subset.trans h'.held h.held⟩
  obtain ⟨t₂, ht₂, hle⟩ := h.tail d t ht
  obtain ⟨t₃, ht₃, hle'⟩ := h'.tail d t₂ ht₂
  exact ⟨t₃, ht₃, hle.trans hle'⟩

theorem Waiting.grows_thinned (h : Waiting stream log) (ht : Thinned log log') : Grows stream log log' := by
  have hw := h.thinned ht
  obtain ⟨held, rfl, hsub⟩ := ht
  exact ⟨hw, fun _ h => h, fun _ t h => ⟨t, h, le_rfl⟩, hsub.subset⟩

theorem entryExists_mono (ha : log.accepted ⊆ log'.accepted) (he : log'.elsewhere = log.elsewhere)
    (hk : log.entryExists hash = true) : log'.entryExists hash = true := by
  rw [entryExists_iff] at hk ⊢
  rw [he]
  exact hk.imp_left fun ⟨e, hmem, heq⟩ => ⟨e, ha hmem, heq⟩

theorem Waiting.grows_to (h : Waiting stream log) (h' : Waiting stream log')
    (ha : log.accepted ⊆ log'.accepted) (he : log'.elsewhere = log.elsewhere)
    (hg : log'.gapped ⊆ log.gapped) : Grows stream log log' := by
  refine ⟨h', fun _ => entryExists_mono ha he, fun d t ht => ?_, hg⟩
  obtain ⟨z, hz, rfl⟩ := (h.sound d).mem_of_tail ht
  obtain ⟨hacc, hd⟩ := mem_filter.mp hz
  exact (h'.sound d).tailPast (mem_filter.mpr ⟨ha hacc, hd⟩) le_rfl

theorem Answers.grow (h : Answers log device parent) (hgr : Grows stream log log') :
    Answers log' device parent := by
  obtain ⟨t, ht, hall⟩ := h
  obtain ⟨t', ht', hle⟩ := hgr.tail device t ht
  refine ⟨t', ht', fun g hmem hd hp => ?_⟩
  exact (hall g (hgr.held hmem) hd hp).imp (hgr.known parent) fun hlow => hlow.trans hle

/-- The entry is stored, and what cites the same entry as it does is settled. -/
structure Taken (log : ChainLog) (device : DeviceFingerprint) (accepted : AcceptedEntry) : Prop where
  stored : log.entryExists accepted.entryHash = true
  tail : (log.chainTail device).isSome
  siblings : ∀ prev, accepted.prevHash = some prev → Answers log device prev

theorem answers_of_known (ht : (log.chainTail device).isSome)
    (hk : log.entryExists parent = true) : Answers log device parent := by
  obtain ⟨t, ht⟩ := Option.isSome_iff_exists.mp ht
  exact ⟨t, ht, fun _ _ _ _ => .inl hk⟩

theorem Grows.tail_isSome (h : Grows stream log log') (ht : (log.chainTail device).isSome) :
    (log'.chainTail device).isSome := by
  obtain ⟨t, ht⟩ := Option.isSome_iff_exists.mp ht
  obtain ⟨t', ht', -⟩ := h.tail device t ht
  exact Option.isSome_iff_exists.mpr ⟨t', ht'⟩

theorem ingestOne_grows (h : Waiting stream σ.log) (hctx : ctx.scope.streamId = stream)
    (hone : ingestOne ctx σ v advertised = .ok (outcome, accepted, σ'))
    (hg : σ'.log.gapped ⊆ σ.log.gapped) : Grows stream σ.log σ'.log := by
  obtain ⟨o, hstep, -⟩ := (ingestOne_ingestsOne hone).step
  exact h.grows_to (h.ingestOne hctx hone) (hstep.accepted ▸ subset_append_left _ _) hstep.elsewhere hg

theorem ingestOne_stores (h : Waiting stream σ.log) {a : AcceptedEntry}
    (hone : ingestOne ctx σ v advertised = .ok (outcome, some a, σ')) :
    a = ⟨v.entryHash, v.prevHash⟩ ∧ σ'.log.entryExists v.entryHash = true ∧
      σ'.log.chainTail v.device = some v.cursor ∧ σ'.log.gapped ⊆ σ.log.gapped := by
  obtain ⟨o, hstep, hnamed⟩ := (ingestOne_ingestsOne hone).step
  have hsound := hstep.chainStep.sound h.sound
  cases hstep with
  | held hno =>
    rw [hno] at hnamed
    cases hnamed
  | stored _ ho _ _ ha _ _ hg | adopted _ ho _ _ ha _ _ hg =>
    rw [ho, storedOutcome_stores] at hnamed
    cases hnamed
    have hmem : v ∈ σ'.log.accepted := ha ▸ mem_append_right _ mem_cons_self
    exact ⟨rfl, entryExists_iff.mpr (.inl ⟨v, hmem, rfl⟩), tail_of_store ha (hsound v.device).rises,
      fun g hmem => (hg g hmem).1⟩

theorem ingestOne_settles (ht : σ.log.chainTail v.device = some t) (hprev : v.prevHash = some parent)
    (hknown : σ.log.entryExists parent = true ∨ v.lamport ≤ t.lamport)
    (hone : ingestOne ctx σ v none = .ok (outcome, accepted, σ')) : σ'.log.gapped ⊆ σ.log.gapped := by
  obtain ⟨o, hstep, -⟩ := (ingestOne_ingestsOne hone).step
  cases hstep with
  | held _ _ _ _ hg =>
    exact fun g hmem => (hg g hmem).resolve_right fun h => classify_ne_gap ht hprev hknown h.2
  | stored _ _ _ _ _ _ _ hg | adopted _ _ _ _ _ _ _ hg => exact fun g hmem => (hg g hmem).1

/-! ## 4. An arrival ends -/

/-- What a turn of a drain does, when it takes a child out. -/
structure DrainStep (stream : StreamId) (device : DeviceFingerprint) (parent : EntryHash)
    (a a' : Arrival) : Prop where
  grows : Grows stream a.store.log a'.store.log
  fewer : a'.store.log.heldCount < a.store.log.heldCount
  tail : a'.tail = a.tail ∨ ∃ accepted, a'.tail = some accepted ∧ accepted.prevHash = some parent ∧
    a'.store.log.entryExists accepted.entryHash = true

theorem drainTurn_ok (hctx : ctx.scope.streamId = stream) (hw : Waiting stream a.store.log)
    (ha : Answers a.store.log device parent) :
    drainTurn ctx device parent a = .inr (.ok a) ∨
      ∃ a', drainTurn ctx device parent a = .inl a' ∧ DrainStep stream device parent a a' := by
  obtain ⟨t, ht, hall⟩ := ha
  -- a child is answered, and settled for good
  have hsettles : ∀ {child : VerifiedEntry}, HeldChild a.store.log device parent child →
      ∀ {r}, ingestOne ctx { a.store with log := a.store.log.dropGapped child.entryHash } child none =
        r → ∃ outcome accepted σ', r = .ok (outcome, accepted, σ') ∧
          Grows stream (a.store.log.dropGapped child.entryHash) σ'.log := by
    rintro child ⟨hmem, hdev, hprev⟩ r rfl
    obtain ⟨hstream, hlt, hadv⟩ := hw.fits child hmem
    set σ : Replica := { a.store with log := a.store.log.dropGapped child.entryHash }
    have hwd : Waiting stream σ.log := hw.thinned (thinned_dropGapped a.store.log child.entryHash)
    obtain ⟨⟨o, log⟩, hacc⟩ := accept_ok ctx.acceptCtx σ.log none (hstream.trans hctx.symm) hlt hadv
    obtain ⟨outcome, σ', hone, -⟩ := ingestOne_of_accept hacc
    have ht' : σ.log.chainTail child.device = some t := hdev ▸ ht
    exact ⟨outcome, _, σ', hone, ingestOne_grows hwd hctx hone
      (ingestOne_settles ht' hprev (hall child hmem hdev hprev) hone)⟩
  have hdrop : ∀ child : VerifiedEntry, Grows stream a.store.log (a.store.log.dropGapped child.entryHash) :=
    fun child => hw.grows_thinned (thinned_dropGapped a.store.log child.entryHash)
  have hturn := drainTurn_turns ctx device parent a
  generalize drainTurn ctx device parent a = r at hturn ⊢
  cases hturn with
  | empty => exact .inl rfl
  | fails hc hone =>
    obtain ⟨outcome, accepted, σ', hok, -⟩ := hsettles hc hone
    cases hok
  | @accepts child outcome x σ' hc hone =>
    obtain ⟨_, _, _, hok, hgr⟩ := hsettles hc hone
    cases hok
    obtain ⟨rfl, hstored, -⟩ := ingestOne_stores (σ := { a.store with
      log := a.store.log.dropGapped child.entryHash }) (hdrop child).waiting hone
    exact .inr ⟨_, rfl, (hdrop child).trans hgr, heldCount_lt hc.1 hgr.held,
      .inr ⟨_, rfl, hc.2.2, hstored⟩⟩
  | @refuses child outcome σ' hc hone =>
    obtain ⟨_, _, _, hok, hgr⟩ := hsettles hc hone
    cases hok
    -- what descends from a fork goes with it
    have hgr := hgr.trans (hgr.waiting.grows_thinned
      (discardGappedDescendants_thinned σ'.log child.entryHash))
    exact .inr ⟨_, rfl, (hdrop child).trans hgr, heldCount_lt hc.1 hgr.held, .inl rfl⟩

/-- What a drain leaves. -/
structure DrainedFrom (stream : StreamId) (device : DeviceFingerprint) (parent : EntryHash)
    (log : ChainLog) (b : Arrival) : Prop where
  grows : Grows stream log b.store.log
  tail : ∀ accepted, b.tail = some accepted → b.store.log.heldCount < log.heldCount ∧
    accepted.prevHash = some parent ∧ b.store.log.entryExists accepted.entryHash = true

theorem DrainedFrom.turn (h : DrainedFrom stream device parent log a)
    (hs : DrainStep stream device parent a a') : DrainedFrom stream device parent log a' := by
  have hfewer : a'.store.log.heldCount < log.heldCount := hs.fewer.trans_le (heldCount_le h.grows.held)
  refine ⟨h.grows.trans hs.grows, fun accepted htail => ⟨hfewer, ?_⟩⟩
  rcases hs.tail with hsame | ⟨x, hx, hprev, hknown⟩
  · obtain ⟨-, hprev, hknown⟩ := h.tail accepted (hsame ▸ htail)
    exact ⟨hprev, hs.grows.known _ hknown⟩
  · rw [htail] at hx
    cases hx
    exact ⟨hprev, hknown⟩

theorem drainChildren_ok (hctx : ctx.scope.streamId = stream) (σ : Replica)
    (promoted : List IngestOutcome) (hw : Waiting stream σ.log) (ha : Answers σ.log device parent)
    (hb : σ.log.heldCount < bound) :
    ∃ b, drainChildren bound ctx device parent promoted σ = some (.ok b) ∧
      DrainedFrom stream device parent σ.log b := by
  have hstart : DrainedFrom stream device parent σ.log ⟨none, promoted, σ⟩ :=
    ⟨hw.grows, nofun⟩
  have hturn : ∀ b, DrainedFrom stream device parent σ.log b →
      drainTurn ctx device parent b = .inr (.ok b) ∨ ∃ b', drainTurn ctx device parent b = .inl b' ∧
        DrainedFrom stream device parent σ.log b' ∧
          b'.store.log.heldCount < b.store.log.heldCount := fun b hbd =>
    (drainTurn_ok hctx hbd.grows.waiting (ha.grow hbd.grows)).imp_right
      fun ⟨b', hturn, hs⟩ => ⟨b', hturn, hbd.turn hs, hs.fewer⟩
  obtain ⟨b, hbd, hrun⟩ := loop_ends _ _ _ hturn hstart hb
  exact ⟨b, hrun, hbd⟩

/-- Where an arrival stands between two turns. -/
structure Standing (stream : StreamId) (device : DeviceFingerprint) (log : ChainLog) (a : Arrival) :
    Prop where
  waiting : Waiting stream a.store.log
  held : a.store.log.gapped ⊆ log.gapped
  taken : ∀ accepted, a.tail = some accepted → Taken a.store.log device accepted

/-- The turns an arrival may still take. -/
def Arrival.turnsLeft (a : Arrival) : Nat := a.store.log.heldCount + if a.tail.isSome then 1 else 0

/-- **A turn of an arrival ends**: the siblings of the entry and its children are drained. -/
theorem ingestTurn_ok (hctx : ctx.scope.streamId = stream) (h : Standing stream device log a)
    (hb : log.heldCount < bound) :
    ingestTurn bound ctx device a = .inr (some (.ok a)) ∨
      ∃ a', ingestTurn bound ctx device a = .inl a' ∧ Standing stream device log a' ∧
        a'.turnsLeft < a.turnsLeft := by
  cases htail : a.tail with
  | none =>
    refine .inl ?_
    unfold ingestTurn
    rw [htail]
  | some accepted =>
    refine .inr ?_
    have htaken := h.taken accepted htail
    -- the siblings first
    obtain ⟨b, hsome, hnone, hbg⟩ : ∃ b,
        (∀ prev, accepted.prevHash = some prev →
          drainChildren bound ctx device prev a.promoted a.store = some (.ok b)) ∧
        (accepted.prevHash = none → b = ⟨none, a.promoted, a.store⟩) ∧
          Grows stream a.store.log b.store.log := by
      cases hprev : accepted.prevHash with
      | none => exact ⟨_, nofun, fun _ => rfl, h.waiting.grows⟩
      | some prev =>
        obtain ⟨b, hb', hd⟩ := drainChildren_ok hctx a.store a.promoted h.waiting
          (htaken.siblings prev hprev) ((heldCount_le h.held).trans_lt hb)
        refine ⟨b, fun prev' heq => ?_, nofun, hd.grows⟩
        cases heq
        exact hb'
    have hfg := hbg.trans (hbg.waiting.grows_thinned
      (discardForeignChainCitations_thinned b.store.log device accepted.entryHash))
    set foreign := discardForeignChainCitations b.store.log device accepted.entryHash with hforeign
    have hknown := hfg.known _ htaken.stored
    have hanswers : Answers foreign.2 device accepted.entryHash :=
      answers_of_known (hfg.tail_isSome htaken.tail) hknown
    -- then the children
    have hcount : foreign.2.heldCount < bound :=
      ((heldCount_le hfg.held).trans (heldCount_le h.held)).trans_lt hb
    obtain ⟨next, hnext, hd⟩ := drainChildren_ok hctx { b.store with log := foreign.2 }
      (b.promoted ++ List.replicate foreign.1 .abandonedBehindFork) hfg.waiting hanswers hcount
    have hgr := hfg.trans hd.grows
    refine ⟨next, ?_, ⟨hgr.waiting, fun g hg => h.held (hgr.held hg), fun x hx => ?_⟩, ?_⟩
    · unfold ingestTurn
      rw [htail]
      cases hprev : accepted.prevHash with
      | none =>
        obtain rfl := hnone hprev
        simp only [hprev, ← hforeign, hnext]
      | some prev => simp only [hprev, hsome prev hprev, ← hforeign, hnext]
    · obtain ⟨-, hprev, hstored⟩ := hd.tail x hx
      have htail := hgr.tail_isSome htaken.tail
      refine ⟨hstored, htail, fun prev hp => ?_⟩
      rw [hprev] at hp
      cases hp
      exact answers_of_known htail (hgr.known _ htaken.stored)
    · have hle := heldCount_le hfg.held
      have hfewer : next.store.log.heldCount ≤ foreign.2.heldCount := heldCount_le hd.grows.held
      unfold Arrival.turnsLeft
      rw [htail]
      cases hx : next.tail with
      | none =>
        simp only [Option.isSome_none, Option.isSome_some, if_true, Bool.false_eq_true, if_false]
        omega
      | some x =>
        have hlt : next.store.log.heldCount < foreign.2.heldCount := (hd.tail x hx).1
        simp only [Option.isSome_some, if_true]
        omega

/-- What is held and cites the same entry does not lie above this one. -/
def NoLaterSibling (log : ChainLog) (v : VerifiedEntry) : Prop :=
  ∀ g ∈ log.gapped, g.device = v.device → g.prevHash = v.prevHash → g.lamport ≤ v.lamport

/-- The entry cites one that is not stored and may become a root: as the advertised floor, or as the
    witness. -/
structure MayRoot (log : ChainLog) (v : VerifiedEntry) (advertised : Option ChainCursor) : Prop where
  missing : ∃ prev, v.prevHash = some prev ∧ log.entryExists prev = false
  root : advertised = some v.cursor ∨ log.chainWitness v.device = some v.cursor

theorem new_of_known (hknown : ∀ hash, log.entryExists hash = true → log'.entryExists hash = true)
    (h : log'.entryExists hash = false) : log.entryExists hash = false :=
  Bool.eq_false_iff.mpr fun hk => Bool.eq_false_iff.mp h (hknown hash hk)

theorem MayRoot.earlier (hknown : ∀ hash, log.entryExists hash = true → log'.entryExists hash = true)
    (hwit : log'.chainWitness v.device = some v.cursor → log.chainWitness v.device = some v.cursor)
    (h : MayRoot log' v advertised) : MayRoot log v advertised := by
  obtain ⟨⟨prev, hp, hmissing⟩, hroot⟩ := h
  exact ⟨⟨prev, hp, new_of_known hknown hmissing⟩, hroot.imp_right hwit⟩

/-- The entry passes the checks of an arrival and becomes a root, as the advertised floor or as the
    witness a purge left, while a later one is held that cites the same missing entry. -/
structure RootsUnder (ctx : SyncCtx) (log : ChainLog) (v : VerifiedEntry)
    (advertised : Option ChainCursor) : Prop where
  gates : ctx.gates = .ok ()
  stream : v.streamId = ctx.scope.streamId
  advance : v.lamport ≤ log.clock + maxLamportAdvance
  fresh : Fresh ctx.acceptCtx log v
  root : adoptsFloor log v advertised = true ∨
    log.chainTail v.device = none ∧ log.chainWitness v.device = some v.cursor
  missing : ∃ prev, v.prevHash = some prev ∧ log.entryExists prev = false
  later : ∃ g ∈ log.gapped, g.device = v.device ∧ g.prevHash = v.prevHash ∧ v.lamport < g.lamport

theorem fresh_of_accept {ctx : AcceptCtx} {r : AcceptOutcome × ChainLog}
    (h : acceptRowEntry ctx log v advertised = .ok r) (ho : r.1.stores = true) : Fresh ctx log v := by
  cases (acceptRowEntry_accepts h).2 with
  | known _ hr | below _ hr | outsider _ hr | again _ _ hr =>
    subst hr
    cases ho
  | adopts hv | stores hv | holds hv | forks hv => exact hv

theorem taken_of_accept {x : AcceptedEntry} (hctx : ctx.scope.streamId = stream)
    (hgates : ctx.gates = .ok ()) (hw : Waiting stream σ.log) (hno : ¬ RootsUnder ctx σ.log v advertised)
    (hone : ingestOne ctx σ v advertised = .ok (outcome, some x, σ')) : Taken σ'.log v.device x := by
  obtain ⟨rfl, hstored, htail, hsub⟩ := ingestOne_stores hw hone
  have hgr := ingestOne_grows hw hctx hone hsub
  refine ⟨hstored, by rw [htail]; rfl, fun prev hp => ⟨v.cursor, htail, fun g hmem hd hgp => ?_⟩⟩
  have hp : v.prevHash = some prev := hp
  obtain ⟨o, log, hacc, -, hnamed, -⟩ := accept_of_ingestOne hone
  have ho : o.stores = true := by
    by_contra hno
    rw [if_neg hno] at hnamed
    cases hnamed
  have hfresh := fresh_of_accept hacc ho
  obtain ⟨hstream, -, hadvance⟩ := (acceptRowEntry_accepts hacc).1
  -- a root is no root under this sibling
  have hsibling : (adoptsFloor σ.log v advertised = true ∨
      σ.log.chainTail v.device = none ∧ σ.log.chainWitness v.device = some v.cursor) →
        σ'.log.entryExists prev = true ∨ g.lamport ≤ v.lamport := by
    intro hroot
    by_contra hspin
    rw [not_or, not_le, Bool.not_eq_true] at hspin
    have hmissing := new_of_known hgr.known hspin.1
    exact hno ⟨hgates, hstream, hadvance, hfresh, hroot, ⟨prev, hp, hmissing⟩, g, hsub hmem, hd,
      hgp.trans hp.symm, hspin.2⟩
  cases acceptRowEntry_step hacc with
  | held hno =>
    rw [hno] at ho
    cases ho
  | adopted _ _ hadv hadopt =>
    subst hadv
    exact hsibling (.inl (decide_eq_true ⟨rfl, hadopt⟩))
  | stored _ _ _ hext =>
    cases hext with
    | genesis _ _ hnone =>
      rw [hnone] at hp
      cases hp
    | next t ht hprev _ =>
      -- the entry cited is the tail, which is stored
      refine .inl (hgr.known prev ?_)
      rw [hprev] at hp
      cases hp
      obtain ⟨z, hz, rfl⟩ := (hw.sound v.device).mem_of_tail ht
      exact entryExists_iff.mpr (.inl ⟨_, mem_of_mem_filter hz, rfl⟩)
    | restore ht hwit => exact hsibling (.inr ⟨ht, hwit⟩)
    | past w ht hwit hprev _ =>
      -- nothing held cites the witness
      have hcites := (hw.waits g (hsub hmem) (hd ▸ ht) w (hd ▸ hwit)).2
      rw [hprev] at hp
      exact absurd (hgp.trans hp.symm) hcites

/-- **An arrival that is answered ends**, unless it roots its chain under a held sibling. -/
theorem ingest_of_one (hctx : ctx.scope.streamId = stream) (hgates : ctx.gates = .ok ())
    (hw : Waiting stream σ.log) (hno : ¬ RootsUnder ctx σ.log v advertised)
    (hone : ingestOne ctx σ v advertised = .ok (outcome, accepted, σ₁))
    (hb : σ.log.heldCount + 2 < bound) :
    ∃ report σ', ingest bound ctx σ v advertised = some (.ok (report, σ')) := by
  have htouch : Touch ctx.scope (fun e => e = v) σ σ₁ :=
    touch_of_ingestsOne (ingestOne_ingestsOne hone) (.inr rfl)
  have hcount : σ₁.log.heldCount ≤ σ.log.heldCount + 1 :=
    heldCount_le_succ fun g hg => (htouch.gapped g hg).symm
  have hstart : Standing stream v.device σ₁.log ⟨accepted, [], σ₁⟩ := by
    refine ⟨hw.ingestOne hctx hone, refl _, fun x hx => ?_⟩
    have hx : accepted = some x := hx
    subst hx
    exact taken_of_accept hctx hgates hw hno hone
  have hleft : Arrival.turnsLeft ⟨accepted, [], σ₁⟩ < bound := by
    unfold Arrival.turnsLeft
    show σ₁.log.heldCount + (if accepted.isSome then 1 else 0) < bound
    split <;> omega
  have hb₁ : σ₁.log.heldCount < bound := by omega
  obtain ⟨b, -, hrun⟩ := loop_ends (Standing stream v.device σ₁.log) Arrival.turnsLeft
    (fun b => some (Except.ok b)) (fun b hbs => ingestTurn_ok hctx hbs hb₁) hstart hleft
  refine ⟨⟨outcome, b.promoted⟩, b.store, ?_⟩
  unfold ingest
  rw [hgates]
  simp only [hone, hrun, Option.join_some]

theorem ingest_ok (hctx : ctx.scope.streamId = stream) (hgates : ctx.gates = .ok ())
    (hw : Waiting stream σ.log) (hstream : v.streamId = stream) (hlt : v.lamport < maxEntryLamport)
    (hadv : v.lamport ≤ σ.log.clock + maxLamportAdvance)
    (hroot : σ.log.entryExists v.entryHash = false → MayRoot σ.log v advertised →
      NoLaterSibling σ.log v) (hb : σ.log.heldCount + 2 < bound) :
    ∃ report σ', ingest bound ctx σ v advertised = some (.ok (report, σ')) := by
  obtain ⟨⟨o, log⟩, hacc⟩ := accept_ok ctx.acceptCtx σ.log advertised
    (hstream.trans hctx.symm) hlt hadv
  obtain ⟨outcome, σ₁, hone, -⟩ := ingestOne_of_accept hacc
  refine ingest_of_one hctx hgates hw (fun hspin => ?_) hone hb
  obtain ⟨g, hg, hd, hp, hlater⟩ := hspin.later
  refine absurd (hroot hspin.fresh.new ⟨hspin.missing, ?_⟩ g hg hd hp) (not_le.mpr hlater)
  refine hspin.root.imp (fun hadopts => ?_) fun hwit => hwit.2
  cases advertised with
  | none => cases hadopts
  | some floor => rw [(of_decide_eq_true hadopts).1]

/-- **Every arrival at every reached store ends**, that does not root its chain under a later held
    sibling. -/
theorem arrival_ends {sc : Scope} {ok : StreamStore → StreamOp → Prop} {σ : StreamStore}
    {authored : List VerifiedEntry} (hreach : StreamReached sc ok σ authored)
    (hctx : ctx.scope.streamId = sc.streamId) (hno : ¬ RootsUnder ctx σ.log v advertised) :
    ∃ enough, ∀ bound, enough ≤ bound →
      (ingest bound ctx σ.toReplica v advertised).isSome = true := by
  refine ⟨σ.log.heldCount + 3, fun bound hb => ?_⟩
  cases hgates : ctx.gates with
  | error why =>
    unfold ingest
    rw [hgates]
    rfl
  | ok =>
    cases hone : ingestOne ctx σ.toReplica v advertised with
    | error why =>
      unfold ingest
      rw [hgates, hone]
      rfl
    | ok r =>
      obtain ⟨outcome, accepted, σ₁⟩ := r
      obtain ⟨report, σ', hend⟩ := ingest_of_one hctx hgates hreach.waiting hno hone hb
      rw [hend]
      rfl

/-- Entry 107 is held for 104. -/
def heldRun : List StreamOp := [receiveNote (noteUpsert 107 7 (some 104) "c") none none]

/-- Entry 104 itself arrives, and promotes it. -/
theorem arrival_ends_held :
    ∃ σ authored, runStream noteScope (fun _ _ => true) .empty [] heldRun = some (σ, authored) ∧
      ∃ enough, ∀ bound, enough ≤ bound →
        (ingest bound noteCtx σ.toReplica (noteUpsert 104 4 none "a") none).isSome = true := by
  have hreach : ∀ r, runStream noteScope (fun _ _ => true) .empty [] heldRun = some r →
      StreamReached noteScope (fun _ _ => True) r.1 r.2 := fun r hr =>
    StreamReached.start.run (fun _ _ _ => trivial) hr
  refine ⟨_, _, rfl, arrival_ends (hreach _ rfl) rfl fun hspin => ?_⟩
  rcases hspin.root with hadopts | ⟨-, hwit⟩
  · cases hadopts
  · cases hwit

theorem ingest_never (hgates : ctx.gates = .ok ())
    (hone : ingestOne ctx σ v advertised = .ok (outcome, some ⟨hash, some prev⟩, σ₁))
    (hspin : ∀ promoted, drainTurn ctx v.device prev ⟨none, promoted, σ₁⟩ =
      .inl ⟨none, promoted ++ [again], σ₁⟩) (bound : Nat) :
    ingest bound ctx σ v advertised = none := by
  have hdrain : drainChildren bound ctx v.device prev [] σ₁ = none := by
    refine loop_never (fun a => a.tail = none ∧ a.store = σ₁) ?_ bound ⟨rfl, rfl⟩
    rintro ⟨_, promoted, _⟩ ⟨rfl, rfl⟩
    exact ⟨_, hspin promoted, rfl, rfl⟩
  have hturn : ingestTurn bound ctx v.device ⟨some ⟨hash, some prev⟩, [], σ₁⟩ = .inr none := by
    simp only [ingestTurn, hdrain]
  have hloop : (loop (ingestTurn bound ctx v.device) bound ⟨some ⟨hash, some prev⟩, [], σ₁⟩).join =
      none := by
    cases hb : bound with
    | zero => rfl
    | succ n =>
      rw [hb] at hturn
      rw [loop_succ_inr hturn]
      rfl
  unfold ingest
  rw [hgates]
  simp only [hone, hloop]

/-- **The floor of the sender arrives, which cites 104 too, and the drain of 104 takes entry 107 out and
    holds it again without end.** -/
theorem arrival_never_ends :
    ∃ σ authored, runStream noteScope (fun _ _ => true) .empty [] heldRun = some (σ, authored) ∧
      ∀ bound, ingest bound noteCtx σ.toReplica (noteUpsert 105 5 (some 104) "b") (some ⟨5, 105⟩) =
        none := by
  exact ⟨_, _, rfl, ingest_never rfl rfl fun _ => rfl⟩

end RagRat.TableSync
