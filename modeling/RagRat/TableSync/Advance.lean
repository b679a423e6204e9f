/-
  File:      RagRat/TableSync/Advance.lean
  Subject:   WHAT THE ENTRIES OF ONE TURN DO TO THE RECEIVER. A session sends the entries of one
             device's chain after the other; each of them is ingested without an error as long as it was
             receivable when its turn began.

  * `Promised`, `suffixRefusal_of_head` -- a store never offers a floor its own tip contradicts;
  * `Advances` -- what a turn leaves: nothing known is forgotten, the other chains stay;
  * `Receivable` -- what an entry must be for a log to take it;
  * `feeds_ok` -- every entry of a turn is ingested.
-/
import RagRat.TableSync.Direction
import RagRat.TableSync.Waiting

namespace RagRat.TableSync

open List
open Lib.Ascending
open Lib.Fallible

variable {es es' fed new more authored : List VerifiedEntry} {t u stream : StreamId}
  {ρ ρ' ρ₁ ρ₂ : Streams} {tip : ChainCursor} {head offered : ChainHead}
  {d device : DeviceFingerprint} {floor advertised : Option ChainCursor} {bound : Nat}
  {ctx : SyncCtx} {v e : VerifiedEntry}

/-! ## 1. What a store offers with a floor -/

theorem suffixRefusal_eq_none {floor : ChainCursor} :
    suffixRefusal (some floor) (some tip) = none ↔
      floor.lamport ≤ tip.lamport ∧ tip.lamport < maxEntryLamport ∧
        (tip.lamport = floor.lamport → tip.entryHash = floor.entryHash) := by
  simp only [suffixRefusal]
  constructor
  · intro h
    split at h
    · cases h
    rename_i hbounds
    split at h
    · cases h
    · rename_i hconflict
      obtain ⟨hle, hlt⟩ := not_not.mp hbounds
      exact ⟨hle, hlt, fun heq => by_contra fun hne => hconflict ⟨heq, hne⟩⟩
  · rintro ⟨hle, hlt, hsame⟩
    rw [if_neg (not_not.mpr ⟨hle, hlt⟩), if_neg fun hboth => hboth.2 (hsame hboth.1)]

/-- Every promised tip lies above the floor of its chain, and below the ceiling. -/
def Promised (σ : StreamStore) : Prop :=
  ∀ c ∈ σ.coverage, c.2.tip.lamport < maxEntryLamport ∧
    ∀ f, σ.log.retainedFloors c.1 = some f → f.lamport < c.2.tip.lamport

section Promised

variable {sc : Scope} {σ σ' : StreamStore}

theorem tip_of_adopted {r : Received} (hs : streamStep sc σ (.ingest bound ctx r) = some (σ', new))
    (hsound : ∀ d, Sound σ.log d) (hroot : AdoptsRoot σ σ' r) (htip : r.advertisedTip = some tip) :
    tip.lamport < maxEntryLamport ∧ (tip = r.entry.cursor ∨ r.entry.lamport < tip.lamport) := by
  obtain ⟨hadopts, hnew, hold⟩ := hroot
  have hfloor : r.usableFloor = some r.entry.cursor := by
    cases hf : r.usableFloor with
    | none =>
      rw [hf] at hadopts
      cases hadopts
    | some f =>
      rw [hf] at hadopts
      exact congrArg some (of_decide_eq_true hadopts).1.symm
  cases streamStep_stepped hsound hs with
  | dropped => exact absurd hold hnew
  | ingested hok =>
    rw [hfloor, htip] at hok
    obtain ⟨hle, hlt, hsame⟩ := suffixRefusal_eq_none.mp hok
    refine ⟨hlt, ?_⟩
    rcases Nat.eq_or_lt_of_le hle with heq | hlt'
    · refine .inl ?_
      have hhash := hsame heq.symm
      cases tip
      simp only [VerifiedEntry.cursor] at hhash heq ⊢
      rw [hhash, heq]
    · exact .inr hlt'
  | plain _ hkind => cases hkind

theorem Promised.step {op : StreamOp} (h : Promised σ) (hsound : ∀ d, Sound σ.log d)
    (hs : streamStep sc σ op = some (σ', new)) : Promised σ' := by
  cases streamStep_settles hsound hs with
  | idle _ _ hcov =>
    intro c hc
    rw [hcov] at hc
    cases hc
  | purged _ hcov _ hf =>
    intro c hc
    refine ⟨(h c (hcov ▸ hc)).1, fun f hf' => ?_⟩
    rw [hf] at hf'
    cases hf'
  | grown _ _ _ hf hcov =>
    intro c hc
    obtain ⟨hlt, habove⟩ := h c (hcov c hc)
    exact ⟨hlt, fun f hf' => habove f (hf ▸ hf')⟩
  | adopted bound ctx r tip hop hroot rest htip hle hadopt ha hf hcov =>
    subst hop
    have hadopts : AdoptsRoot σ σ' r := by
      by_contra hnot
      rw [StreamOp.adoptedRoot, if_neg hnot] at hroot
      cases hroot
    obtain ⟨hlt, htip'⟩ := tip_of_adopted hs hsound hadopts htip
    have hfloors : σ'.log.retainedFloors =
        Function.update σ.log.retainedFloors r.entry.device (some r.entry.cursor) := by
      rw [hf]
      exact floors_of_adoptable (hsound _) hadopt
    intro c hc
    rw [hcov] at hc
    obtain ⟨hc, hopen⟩ := mem_filter.mp hc
    have hopen := of_decide_eq_true hopen
    rcases mem_append.mp hc with hold | hnew
    · obtain ⟨hmem, hne⟩ := mem_filter.mp hold
      obtain ⟨hlt', habove⟩ := h c hmem
      refine ⟨hlt', fun f hf' => habove f ?_⟩
      rw [hfloors, Function.update_of_ne (of_decide_eq_true hne)] at hf'
      exact hf'
    · obtain rfl := mem_singleton.mp hnew
      refine ⟨hlt, fun f hf' => ?_⟩
      rw [hfloors, Function.update_self] at hf'
      cases hf'
      -- a tip that is the root itself is delivered with it
      refine htip'.resolve_left fun heq => hopen ⟨rfl, ?_⟩
      have hmem : r.entry ∈ σ'.log.accepted :=
        ha ▸ mem_append_right _ mem_cons_self
      obtain ⟨s, hs', hsame⟩ := mem_map.mp hmem
      refine any_eq_true.mpr ⟨s, hs', decide_eq_true ?_⟩
      show s.toVerifiedEntry.device = _ ∧ s.toVerifiedEntry.lamport = tip.lamport ∧
        s.toVerifiedEntry.entryHash = tip.entryHash
      rw [hsame, heq]
      exact ⟨rfl, rfl, rfl⟩

theorem StreamReached.promised {ok : StreamStore → StreamOp → Prop}
    (h : StreamReached sc ok σ authored) : Promised σ := by
  induction h with
  | start => nofun
  | step hr op _ hs ih => exact ih.step hr.dated.1 hs

theorem suffixRefusal_of_head (hsound : ∀ d, Sound σ.log d) (hp : Promised σ)
    (hmem : head ∈ chainHeads σ) : suffixRefusal head.floor (some head.tip) = none := by
  obtain ⟨e, he, rfl⟩ := mem_chainHeads.mp hmem
  obtain ⟨hentry, hhigh⟩ := mem_filter.mp he
  simp only [decide_eq_true_eq, not_exists, not_and] at hhigh
  have hfloor : (chainHead σ e).floor = σ.log.retainedFloors e.device := rfl
  rw [hfloor]
  cases hf : σ.log.retainedFloors e.device with
  | none => rfl
  | some f =>
    cases ho : σ.obligation e.device with
    | some owed =>
      have htip : (chainHead σ e).tip = owed.tip := by
        unfold chainHead ChainHead.tip
        rw [ho]
      rw [htip]
      obtain ⟨l₁, l₂, hl, -⟩ := lookup_eq_some_iff.mp ho
      have hc : (e.device, owed) ∈ σ.coverage := by
        rw [hl]
        simp
      obtain ⟨hlt, habove⟩ := hp _ hc
      have hgt : f.lamport < owed.tip.lamport := habove f hf
      exact suffixRefusal_eq_none.mpr ⟨hgt.le, hlt, fun heq => absurd heq (by omega)⟩
    | none =>
      have htip : (chainHead σ e).tip = e.cursor := by
        unfold chainHead ChainHead.tip
        rw [ho]
      rw [htip]
      -- the floor is stored, and the highest entry is not below it
      obtain ⟨z, hz, rfl⟩ := (hsound e.device).floor f hf
      obtain ⟨hzacc, hzdev⟩ := mem_filter.mp hz
      obtain ⟨y, hy, rfl⟩ := mem_map.mp hzacc
      have hle : y.lamport ≤ e.lamport := not_lt.mp (hhigh y hy (of_decide_eq_true hzdev))
      refine suffixRefusal_eq_none.mpr ⟨hle, e.lamport_lt, fun heq => ?_⟩
      have hown : e.toVerifiedEntry ∈ σ.log.chainOf e.device :=
        mem_filter.mpr ⟨mem_map_of_mem hentry, decide_eq_true rfl⟩
      have hsame := (hsound e.device).rises.eq_of_key hown hz heq
      exact congrArg VerifiedEntry.entryHash hsame

end Promised

/-! ## 2. What a turn does to a stream -/

/-- **What one device's turn does to a log**: nothing known is forgotten, only its entries are held
    anew, its witness moves only to a stored entry, and the other chains stay. -/
structure Advances (stream : StreamId) (d : DeviceFingerprint) (es : List VerifiedEntry)
    (log log' : ChainLog) : Prop where
  waiting : Waiting stream log'
  clock : log.clock ≤ log'.clock
  known : ∀ hash, log.entryExists hash = true → log'.entryExists hash = true
  held : ∀ g ∈ log'.gapped, g ∈ log.gapped ∨ g ∈ es
  witness : ∀ w, log'.chainWitness d = some w →
    log.chainWitness d = some w ∨ log'.entryExists w.entryHash = true
  others : ∀ d', d' ≠ d → Untouched d' log log'
  count : log'.heldCount ≤ log.heldCount + es.length

section Advances

variable {log log' log₁ log₂ log₃ : ChainLog}

theorem Advances.refl (h : Waiting stream log) (es : List VerifiedEntry) : Advances stream d es log log :=
  ⟨h, le_rfl, fun _ h => h, fun _ h => .inl h, fun _ h => .inl h, fun _ _ => .refl _,
    Nat.le_add_right _ _⟩

theorem Advances.trans (h : Advances stream d es log₁ log₂) (h' : Advances stream d es' log₂ log₃) :
    Advances stream d (es ++ es') log₁ log₃ where
  waiting := h'.waiting
  clock := h.clock.trans h'.clock
  known hash hk := h'.known hash (h.known hash hk)
  held g hg := by
    rcases h'.held g hg with hg | hg
    · exact (h.held g hg).imp_right (mem_append_left _)
    · exact .inr (mem_append_right _ hg)
  witness w hw := by
    rcases h'.witness w hw with hw | hw
    · exact (h.witness w hw).imp_right (h'.known _)
    · exact .inr hw
  others d' hne := (h.others d' hne).trans (h'.others d' hne)
  count := by
    have h₁ := h.count
    have h₂ := h'.count
    rw [length_append]
    omega

theorem Advances.thinned (h : Waiting stream log) (ht : Thinned log log') : Advances stream d [] log log' := by
  have hw := h.thinned ht
  obtain ⟨held, rfl, hsub⟩ := ht
  exact ⟨hw, le_rfl, fun _ h => h, fun g hg => .inl (hsub.subset hg), fun _ h => .inl h,
    fun _ _ => .thinned ⟨held, rfl, hsub⟩, heldCount_le hsub.subset⟩

section One

variable {σ σ' : Replica} {outcome : IngestOutcome} {accepted : Option AcceptedEntry}

variable (h : Waiting stream σ.log) (hctx : ctx.scope.streamId = stream)

include h hctx

theorem ingestOne_advances (hone : ingestOne ctx σ v advertised = .ok (outcome, accepted, σ')) :
    Advances stream v.device [v] σ.log σ'.log := by
  have htouch : Touch ctx.scope (fun e => e = v) σ σ' :=
    touch_of_ingestsOne (ingestOne_ingestsOne hone) (.inr rfl)
  have hheld : ∀ g ∈ σ'.log.gapped, g = v ∨ g ∈ σ.log.gapped := fun g hg => (htouch.gapped g hg).symm
  obtain ⟨o, hstep, -⟩ := (ingestOne_ingestsOne hone).step
  refine ⟨h.ingestOne hctx hone, htouch.chain.clock_le h.sound h.keyed,
    fun _ => entryExists_mono (hstep.accepted ▸ subset_append_left _ _) hstep.elsewhere,
    fun g hg => (htouch.gapped g hg).imp_right mem_singleton.mpr, ?_, ?_,
    heldCount_le_succ hheld⟩
  · intro w hw
    rcases htouch.chain.witness h.sound v.device with hsame | ⟨e, he, hwit, -⟩
    · exact .inl (hsame.symm.trans hw)
    · rw [hwit] at hw
      cases hw
      exact .inr (entryExists_iff.mpr (.inl ⟨_, he, rfl⟩))
  · intro d' hne
    exact ingestOne_untouched h.sound (Ne.symm hne) hone

theorem Promotes.advances (hprom : Promotes ctx device σ σ') :
    Advances stream device [] σ.log σ'.log := by
  induction hprom with
  | refl => exact .refl h []
  | thin _ hthin ih => exact ih.trans (.thinned ih.waiting hthin)
  | @child σ₁ σ₂ child _ _ hp hmem hdev hone ih =>
    subst hdev
    have hdrop := ih.trans (.thinned ih.waiting (thinned_dropGapped σ₁.log child.entryHash))
    have hstep := ingestOne_advances hdrop.waiting hctx hone
    -- the child was held: nothing is held anew
    have hheld : ∀ g ∈ σ₂.log.gapped, g ∈ σ₁.log.gapped := by
      intro g hg
      rcases hstep.held g hg with hg | hg
      · exact mem_of_mem_filter hg
      · exact mem_singleton.mp hg ▸ hmem
    exact ⟨hstep.waiting, hdrop.clock.trans hstep.clock,
      fun hash hk => hstep.known hash (hdrop.known hash hk), fun g hg => ih.held g (hheld g hg),
      (hdrop.trans hstep).witness, (hdrop.trans hstep).others,
      (heldCount_le hheld).trans ih.count⟩

theorem ingest_advances {report : IngestReport}
    (hi : ingest bound ctx σ v advertised = some (.ok (report, σ'))) :
    Advances stream v.device [v] σ.log σ'.log := by
  obtain ⟨outcome, accepted, σ₁, hone, hprom, -⟩ := ingest_promotes hi
  have hstep := ingestOne_advances h hctx hone
  exact hstep.trans (hprom.advances hstep.waiting hctx)

end One

/-- What an entry must be for the log to take it, stored or not. -/
structure Receivable (log : ChainLog) (floor : Option ChainCursor) (e : VerifiedEntry) : Prop where
  ceiling : e.lamport < maxEntryLamport
  clock : e.lamport ≤ log.clock + maxLamportAdvance
  root : log.entryExists e.entryHash = false → MayRoot log e floor → NoLaterSibling log e

theorem Receivable.later (h : Receivable log floor e) (hadv : Advances stream e.device es log log')
    (hlow : ∀ x ∈ es, x.lamport ≤ e.lamport) : Receivable log' floor e where
  ceiling := h.ceiling
  clock := h.clock.trans (Nat.add_le_add_right hadv.clock _)
  root hnew hmay := by
    have hmay₀ : MayRoot log e floor := by
      refine hmay.earlier hadv.known fun hw => (hadv.witness _ hw).resolve_right fun hk => ?_
      rw [show log'.entryExists e.entryHash = true from hk] at hnew
      cases hnew
    intro g hg hd hp
    rcases hadv.held g hg with hold | hfed
    · exact h.root (new_of_known hadv.known hnew) hmay₀ g hold hd hp
    · exact hlow g hfed

end Advances

section Feed

variable {p : Receiver}

/-- The store sees hashes of other streams it did not see, and has nothing else that is new. -/
def Aside (σ σ' : StreamStore) : Prop :=
  (∃ elsewhere, σ' = { σ with log := { σ.log with elsewhere := elsewhere } }) ∧
    ∀ hash, σ.log.entryExists hash = true → σ'.log.entryExists hash = true

theorem Aside.refl (σ : StreamStore) : Aside σ σ := ⟨⟨σ.log.elsewhere, rfl⟩, fun _ h => h⟩

theorem Aside.trans {σ₁ σ₂ σ₃ : StreamStore} (h : Aside σ₁ σ₂) (h' : Aside σ₂ σ₃) : Aside σ₁ σ₃ := by
  obtain ⟨⟨_, rfl⟩, hk⟩ := h
  obtain ⟨⟨e, rfl⟩, hk'⟩ := h'
  exact ⟨⟨e, rfl⟩, fun hash hash' => hk' hash (hk hash hash')⟩

/-- Only this stream was ingested on. -/
def Beside (t : StreamId) (ρ ρ' : Streams) : Prop := ∀ u, u ≠ t → Aside (ρ u) (ρ' u)

theorem Beside.refl (t : StreamId) (ρ : Streams) : Beside t ρ ρ := fun u _ => .refl (ρ u)

theorem Beside.trans (h : Beside t ρ ρ₁) (h' : Beside t ρ₁ ρ₂) : Beside t ρ ρ₂ :=
  fun u hu => (h u hu).trans (h' u hu)

theorem beside_put (ρ : Streams) (t : StreamId) (σ : StreamStore) : Beside t ρ (ρ.put t σ) := by
  intro u hu
  refine ⟨⟨(ρ.put t σ u).log.elsewhere, ?_⟩, fun hash hk => ?_⟩
  · simp [Streams.put, hu]
  · rw [put_of_ne hu]
    unfold ChainLog.entryExists at hk ⊢
    rcases Bool.or_eq_true_iff.mp hk with hk | hk
    · exact Bool.or_eq_true_iff.mpr (.inl hk)
    · refine Bool.or_eq_true_iff.mpr (.inr ?_)
      show (ρ.put t σ u).log.elsewhere hash = true
      rw [put_elsewhere hu, hk, Bool.true_or]

/-- The streams after any number of ingests. -/
inductive Ingests (p : Receiver) (ρ : Streams) : Streams → Prop where
  | refl : Ingests p ρ ρ
  | ingest {ρ₁ : Streams} (h : Ingests p ρ ρ₁) {t : StreamId} {r : Received}
      {o : TableSyncIngestOutcome} {σ : StreamStore}
      (he : ingestReceived p.bound (p.ctx t) (ρ₁ t) r = some (.ok (o, σ))) :
      Ingests p ρ (ρ₁.put t σ)

theorem Ingests.trans (h : Ingests p ρ ρ₁) (h' : Ingests p ρ₁ ρ₂) : Ingests p ρ ρ₂ := by
  induction h' with
  | refl => exact h
  | ingest _ he ih => exact ih.ingest he

theorem Feeds.ingests (h : Feeds p t offered ρ es ρ') : Ingests p ρ ρ' := by
  induction h with
  | nil => exact .refl
  | cons he _ ih => exact (Ingests.refl.ingest he).trans ih

theorem Ingests.reached (h : Ingests p ρ ρ')
    (hr : StreamReached (p.ctx u).scope (fun _ _ => True) (ρ u) authored) :
    StreamReached (p.ctx u).scope (fun _ _ => True) (ρ' u) authored := by
  induction h with
  | refl => exact hr
  | @ingest ρ₁ _ t r o σ he ih =>
    rw [← append_nil authored]
    by_cases hu : u = t
    · subst hu
      rw [put_self]
      refine ih.step (.ingest p.bound (p.ctx u) r) trivial ?_
      simp only [streamStep, he]
    · refine ih.step (.otherStreams (ρ₁.put t σ u).log.elsewhere) trivial ?_
      simp [streamStep, Streams.put, hu]

/-- What the receiver works under for a stream: its own scope, and gates that are open. -/
structure Opens (p : Receiver) (t : StreamId) : Prop where
  scope : (p.ctx t).scope.streamId = t
  gates : (p.ctx t).gates = .ok ()

theorem received_ok {σ : StreamStore} (hp : Opens p t)
    (hrefuse : suffixRefusal offered.floor (some offered.tip) = none) (hw : Waiting t σ.log)
    (he : Receivable σ.log offered.floor e) (hb : σ.log.heldCount + 2 < p.bound) :
    ∃ o σ', ingestReceived p.bound (p.ctx t) σ
        ⟨offered.device, e, offered.floor, some offered.tip⟩ = some (.ok (o, σ')) ∧
      Advances t offered.device [e] σ.log σ'.log := by
  by_cases hstream : e.streamId = t
  · by_cases hdev : e.device = offered.device
    · obtain ⟨report, σ₁, hing⟩ := ingest_ok (σ := σ.toReplica) hp.scope hp.gates hw hstream
        he.ceiling he.clock he.root hb
      refine ⟨report.outcome.received, { σ with toReplica := σ₁ }.settleCoverage e.device
        (σ.log.retainedFloor e.device) (some offered.tip), ?_, ?_⟩
      · unfold ingestReceived
        rw [if_neg (not_not.mpr (hstream.trans hp.scope.symm)), if_neg (not_not.mpr hdev)]
        simp only [Received.usableFloor, Option.isSome_some, if_true, hrefuse, hing]
      · have hlog := congrArg Replica.log (settleCoverage_toReplica
          (σ := { σ with toReplica := σ₁ }) e.device (σ.log.retainedFloor e.device)
          (some offered.tip))
        rw [← hdev]
        show Advances t e.device [e] σ.log _
        rw [hlog]
        exact ingest_advances hw hp.scope hing
    · refine ⟨.noChange, σ, ?_, .refl hw _⟩
      unfold ingestReceived
      rw [if_neg (not_not.mpr (hstream.trans hp.scope.symm)), if_pos hdev]
  · refine ⟨.noChange, σ, ?_, .refl hw _⟩
    unfold ingestReceived
    rw [if_pos fun heq => hstream (heq.trans hp.scope)]

theorem feeds_ok {base : ChainLog} (hp : Opens p t)
    (hrefuse : suffixRefusal offered.floor (some offered.tip) = none)
    (hadv : Advances t offered.device fed base (ρ t).log)
    (hdev : ∀ e ∈ more, e.device = offered.device)
    (hrec : ∀ e ∈ more, Receivable base offered.floor e) (hrise : Rises (·.lamport) (fed ++ more))
    (hb : base.heldCount + (fed ++ more).length + 2 < p.bound) :
    ∃ ρ', Feeds p t offered ρ more ρ' ∧
      Advances t offered.device (fed ++ more) base (ρ' t).log ∧ Beside t ρ ρ' := by
  induction more generalizing ρ fed with
  | nil => exact ⟨ρ, .nil, (append_nil fed).symm ▸ hadv, .refl t ρ⟩
  | cons e more ih =>
    have hlow : ∀ x ∈ fed, x.lamport ≤ e.lamport := fun x hx =>
      ((pairwise_append.mp hrise).2.2 x hx e mem_cons_self).le
    have he := hdev e mem_cons_self
    have hnow : Receivable (ρ t).log offered.floor e :=
      (hrec e mem_cons_self).later (he ▸ hadv) hlow
    have hcount := hadv.count
    rw [length_append, length_cons] at hb
    obtain ⟨o, σ, hing, hstep⟩ := received_ok hp hrefuse hadv.waiting hnow (by omega)
    have hsplit : fed ++ e :: more = (fed ++ [e]) ++ more := by simp
    have hadv' : Advances t offered.device (fed ++ [e]) base (ρ.put t σ t).log := by
      rw [put_self]
      exact hadv.trans hstep
    obtain ⟨ρ', hfeeds, hend, hbeside⟩ := ih hadv'
      (forall_mem_cons.mp hdev).2
      (forall_mem_cons.mp hrec).2 (hsplit ▸ hrise)
      (by rw [length_append, length_append, length_singleton]; omega)
    refine ⟨ρ', .cons hing hfeeds, ?_, (beside_put ρ t σ).trans hbeside⟩
    rw [hsplit]
    exact hend

end Feed

end RagRat.TableSync
