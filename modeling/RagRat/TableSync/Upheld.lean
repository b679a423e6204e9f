/-
  File:      RagRat/TableSync/Upheld.lean
  Subject:   AN HONEST CHAIN IN A REACHABLE STORE. All entries of the device that ever come lie on one
             chain; what the store then knows of it, through purges, floors and held entries.

  * `Upholds` -- everything stored, held or witnessed of the device lies on its chain, and what is held
    lies above the witness;
  * `Drained` -- nothing held cites the witness: what could be promoted has been;
  * `ingest_upholds` -- an arrival keeps both, `StreamReached.upheld` -- and so does every run;
  * `Comes`, `ingest_reaches` -- the entries that move the tail, and that they do.
-/
import RagRat.TableSync.Coverage
import RagRat.TableSync.Delivery

namespace RagRat.TableSync

open List
open Lib.Ascending
open Lib.Loop (loop loop_rule)

variable {d device : DeviceFingerprint} {chain authored new : List VerifiedEntry}
  {log log' log₁ log₂ log₃ : ChainLog} {stream : StreamId} {report : IngestReport}
  {v e c z x : VerifiedEntry} {advertised : Option ChainCursor} {ctx : SyncCtx} {σ σ' : Replica}
  {bound n : Nat} {a a' : Arrival}

/-! ## 1. What a store knows of an honest chain -/

/-- The entry lies on the chain, or it is another device's and under a hash of its own. -/
def Placed (d : DeviceFingerprint) (chain : List VerifiedEntry) (e : VerifiedEntry) : Prop :=
  e ∈ chain ∨ (e.device ≠ d ∧ ∀ c ∈ chain, c.entryHash ≠ e.entryHash)

/-- **An honest chain upheld**: what is stored, held or witnessed lies on it, and what is held has a
    predecessor and lies above the witness. -/
structure Upholds (d : DeviceFingerprint) (chain : List VerifiedEntry) (log : ChainLog) : Prop where
  sound : ∀ d, Sound log d
  stored : ∀ e ∈ log.accepted, Placed d chain e
  held : ∀ e ∈ log.gapped, Placed d chain e
  elsewhere : ∀ c ∈ chain, log.elsewhere c.entryHash = false
  witness : ∀ w, log.chainWitness d = some w → ∃ c ∈ chain, c.cursor = w
  waits : ∀ e ∈ log.gapped, e.device = d → e.prevHash.isSome ∧
    ∀ w, log.chainWitness d = some w → w.lamport < e.lamport

/-- Nothing held of the chain cites its witness. -/
def Drained (log : ChainLog) (d : DeviceFingerprint) : Prop :=
  ∀ e ∈ log.gapped, e.device = d → ∀ w, log.chainWitness d = some w → e.prevHash ≠ some w.entryHash

section Upholds

theorem Placed.mem (h : Placed d chain e) (hd : e.device = d) : e ∈ chain :=
  h.resolve_right fun hne => hne.1 hd

theorem Placed.eq_of_hash (h : Placed d chain e) (hc : HonestChain stream d chain)
    (hmem : c ∈ chain) (heq : e.entryHash = c.entryHash) : e = c := by
  rcases h with h | ⟨-, hne⟩
  · exact hc.apart e h c hmem heq
  · exact absurd heq.symm (hne c hmem)

theorem Upholds.keep (h : Upholds d chain log) (hs : ∀ d, Sound log' d)
    (ha : ∀ e ∈ log'.accepted, Placed d chain e) (hp : ∀ e ∈ log'.gapped, Placed d chain e)
    (hg : ∀ g ∈ log'.gapped, g.device = d → g ∈ log.gapped)
    (hw : log'.chainWitness d = log.chainWitness d) (he : log'.elsewhere = log.elsewhere) :
    Upholds d chain log' :=
  ⟨hs, ha, hp, he ▸ h.elsewhere, hw ▸ h.witness, fun g hmem hd => hw ▸ h.waits g (hg g hmem hd) hd⟩

theorem Upholds.lessen (h : Upholds d chain log) (hs : ∀ d, Sound log' d)
    (ha : log'.accepted ⊆ log.accepted) (hg : log'.gapped ⊆ log.gapped)
    (ht : log'.chainTips = log.chainTips) (he : log'.elsewhere = log.elsewhere) :
    Upholds d chain log' :=
  h.keep hs (fun e hmem => h.stored e (ha hmem)) (fun e hmem => h.held e (hg hmem))
    (fun _ hmem _ => hg hmem) (chainWitness_congr ht d) he

theorem Drained.lessen (h : Drained log d) (hg : log'.gapped ⊆ log.gapped)
    (ht : log'.chainTips = log.chainTips) : Drained log' d := by
  intro e hmem hd
  rw [chainWitness_congr ht]
  exact h e (hg hmem) hd

variable (h : Upholds d chain log)

include h

theorem Upholds.thinned (ht : Thinned log log') : Upholds d chain log' := by
  obtain ⟨held, rfl, hsub⟩ := ht
  exact h.lessen (fun d => (h.sound d).congr rfl rfl rfl) (List.Subset.refl _) hsub.subset rfl rfl

theorem Upholds.same (hs : SameChains log log') : Upholds d chain log' :=
  h.lessen (hs.chainStep.sound h.sound) (hs.accepted ▸ List.Subset.refl _)
    (hs.gapped ▸ List.Subset.refl _) hs.tips hs.elsewhere

theorem Upholds.store (hc : HonestChain stream d chain) (hv : v ∈ chain)
    (hfit : Extends log v ∨ adoptable log v.device v.cursor = true ∧
      ∀ g ∈ log'.gapped, g.device = v.device → v.lamport ≤ g.lamport)
    (hs : ∀ d, Sound log' d) (ha : log'.accepted = log.accepted ++ [v])
    (ht : log'.chainTips = (log.raiseTip v).chainTips)
    (hg : ∀ g ∈ log'.gapped, g ∈ log.gapped ∧ g.entryHash ≠ v.entryHash)
    (he : log'.elsewhere = log.elsewhere) :
    Upholds d chain log' ∧ log'.chainWitness d = some v.cursor := by
  obtain rfl := hc.device v hv
  have hraise : ∀ w, log.chainWitness v.device = some w → w = v.cursor ∨ w.lamport < v.lamport := by
    rcases hfit with hext | ⟨hadopt, -⟩
    · exact (tops_of_extends (h.sound _) hext).witness
    · exact (tops_of_adoptable (h.sound _) hadopt).witness
  have hwit := chainWitness_raise_self ht hraise
  refine ⟨⟨hs, ?_, fun e hmem => h.held e (hg e hmem).1, he ▸ h.elsewhere, fun w hw => ?_,
    fun g hmem hdev => ?_⟩, hwit⟩
  · rw [ha, forall_mem_append, forall_mem_singleton]
    exact ⟨h.stored, .inl hv⟩
  · rw [hwit] at hw
    cases hw
    exact ⟨v, hv, rfl⟩
  · obtain ⟨hold, hne⟩ := hg g hmem
    obtain ⟨hprev, habove⟩ := h.waits g hold hdev
    have hgc : g ∈ chain := (h.held g hold).mem hdev
    refine ⟨hprev, fun w hw => ?_⟩
    rw [hwit] at hw
    cases hw
    -- the held entry is not the stored one, so at or above it means above it
    suffices hle : v.lamport ≤ g.lamport by
      refine lt_of_le_of_ne hle fun heq => hne ?_
      rw [hc.rises.eq_of_key hv hgc heq]
    rcases hfit with hext | ⟨-, hswept⟩
    · cases hext with
      | genesis _ _ hp => exact hc.first_le hv hp hgc
      | next t htail hp _ =>
        have hw := (h.sound _).tail t htail
        obtain ⟨c, hcm, rfl⟩ := h.witness t hw
        exact hc.next_le hcm hv hp hgc (habove _ hw)
      | restore _ hw => exact (habove _ hw).le
      | past w _ hw hp _ =>
        obtain ⟨c, hcm, rfl⟩ := h.witness w hw
        exact hc.next_le hcm hv hp hgc (habove _ hw)
    · exact hswept g hmem hdev

theorem Upholds.of_gap (hc : HonestChain stream d chain) (hv : v ∈ chain)
    (hfit : classify log v advertised = .gap) :
    v.prevHash.isSome ∧ ∀ w, log.chainWitness d = some w →
      w.lamport < v.lamport ∧ v.prevHash ≠ some w.entryHash := by
  obtain rfl := hc.device v hv
  have hfits := classified log v advertised
  rw [hfit] at hfits
  cases hfits with
  | follows hok => rcases hok with hok | hok <;> cases hok
  | gap prev hp htail hwit =>
    rw [hp]
    refine ⟨rfl, fun w hw => ?_⟩
    rw [ne_eq, Option.some.injEq]
    cases ht : log.chainTail v.device with
    | none => exact hwit ht w hw
    | some t =>
      obtain rfl := Option.some.inj (((h.sound _).tail t ht).symm.trans hw)
      exact ⟨(htail t ht).1, (htail t ht).2.1⟩

end Upholds

/-! ## 2. An arrival -/

section Arrival

variable {outcome : IngestOutcome} {accepted : Option AcceptedEntry}

/-- **One entry of the chain, ingested**: at most held, for a gap, or stored and then the witness. -/
theorem Upholds.ingestOne_own (h : Upholds d chain σ.log) (hc : HonestChain stream d chain)
    (hv : v ∈ chain) (hone : ingestOne ctx σ v advertised = .ok (outcome, accepted, σ')) :
    Upholds d chain σ'.log ∧
      ((accepted = none ∧ σ'.log.accepted = σ.log.accepted ∧ σ'.log.chainTips = σ.log.chainTips ∧
          ∀ g ∈ σ'.log.gapped, g ∈ σ.log.gapped ∨ (g = v ∧ classify σ.log v advertised = .gap)) ∨
        (accepted = some ⟨v.entryHash, v.prevHash⟩ ∧ σ'.log.accepted = σ.log.accepted ++ [v] ∧
          σ'.log.chainWitness d = some v.cursor)) := by
  obtain ⟨o, -, -, hstep, haccd, -⟩ := accept_of_ingestOne hone
  have hsound := hstep.chainStep.sound h.sound
  cases hstep with
  | held ho ha _ ht hg he =>
    have hwit : σ'.log.chainWitness d = σ.log.chainWitness d := chainWitness_congr ht d
    refine ⟨⟨hsound, ha ▸ h.stored, fun g hmem => ?_, he ▸ h.elsewhere, hwit ▸ h.witness,
      fun g hmem hdev => ?_⟩, .inl ⟨by rw [haccd, ho]; rfl, ha, ht, hg⟩⟩
    · rcases hg g hmem with hold | ⟨rfl, -⟩
      · exact h.held g hold
      · exact .inl hv
    · rw [hwit]
      rcases hg g hmem with hold | ⟨rfl, hfit⟩
      · exact h.waits g hold hdev
      · obtain ⟨hprev, habove⟩ := h.of_gap hc hv hfit
        exact ⟨hprev, fun w hw => (habove w hw).1⟩
  | stored hlt ho hno hext ha hf ht hg he =>
    obtain ⟨hup, hwit⟩ := h.store hc hv (.inl hext) hsound ha ht hg he
    exact ⟨hup, .inr ⟨by rw [haccd, ho, storedOutcome_stores]; rfl, ha, hwit⟩⟩
  | adopted hlt ho hadv hadopt ha hf ht hg he hswept =>
    obtain ⟨hup, hwit⟩ := h.store hc hv (.inr ⟨hadopt, hswept⟩) hsound ha ht hg he
    exact ⟨hup, .inr ⟨by rw [haccd, ho, storedOutcome_stores]; rfl, ha, hwit⟩⟩

/-- Where the drain of the held children of `z` stands: none promoted yet, or its one successor. -/
inductive Drains (d : DeviceFingerprint) (chain : List VerifiedEntry) (z : VerifiedEntry)
    (a : Arrival) : Prop where
  | waiting (hup : Upholds d chain a.store.log) (ht : a.tail = none)
      (hw : a.store.log.chainWitness d = some z.cursor)
  | moved (hup : Upholds d chain a.store.log) (y : VerifiedEntry) (hy : y ∈ chain)
      (hp : y.prevHash = some z.entryHash) (ht : a.tail = some ⟨y.entryHash, y.prevHash⟩)
      (hw : a.store.log.chainWitness d = some y.cursor)

/-- Where an arrival stands: everything that could be promoted is, or `z` was stored last. -/
inductive Promoting (d : DeviceFingerprint) (chain : List VerifiedEntry) (a : Arrival) : Prop where
  | settled (hup : Upholds d chain a.store.log) (ht : a.tail = none) (hd : Drained a.store.log d)
  | behind (hup : Upholds d chain a.store.log) (z : VerifiedEntry) (hz : z ∈ chain)
      (ht : a.tail = some ⟨z.entryHash, z.prevHash⟩)
      (hw : a.store.log.chainWitness d = some z.cursor)

theorem Upholds.witness_not_held (h : Upholds d chain log) (hc : HonestChain stream d chain)
    (hz : z ∈ chain) (hw : log.chainWitness d = some z.cursor) : z ∉ log.gapped := by
  intro hmem
  have hlt := (h.waits z hmem (hc.device z hz)).2 _ hw
  exact lt_irrefl _ hlt

theorem Drains.turn (h : Drains d chain z a) (hc : HonestChain stream d chain) (hz : z ∈ chain)
    (ht : drainTurn ctx d z.entryHash a = .inl a') : Drains d chain z a' := by
  cases h with
  | moved hup y hy hp _ hw =>
    -- the one successor is stored already: nothing else cites the parent
    rw [drainTurn_over] at ht
    · cases ht
    · rintro child ⟨hmem, hdev, hprev⟩
      have hcm : child ∈ chain := (hup.held child hmem).mem hdev
      obtain rfl := hc.child_unique hz hy hp hcm hprev
      exact hup.witness_not_held hc hcm hw hmem
  | waiting hup htail hw =>
    have hturn := drainTurn_turns ctx d z.entryHash a
    rw [ht] at hturn
    cases hturn with
    | @accepts child _ _ _ hchild hone =>
      have hcm : child ∈ chain := (hup.held child hchild.1).mem hchild.2.1
      have hdrop := hup.thinned (thinned_dropGapped _ child.entryHash)
      obtain ⟨hup', hnone | ⟨hacc, -, hw'⟩⟩ := hdrop.ingestOne_own hc hcm hone
      · cases hnone.1
      · exact .moved hup' child hcm hchild.2.2 hacc hw'
    | @refuses child _ σ₁ hchild hone =>
      have hcm : child ∈ chain := (hup.held child hchild.1).mem hchild.2.1
      have hdrop := hup.thinned (thinned_dropGapped _ child.entryHash)
      obtain ⟨hup', ⟨-, -, htips, -⟩ | hsome⟩ := hdrop.ingestOne_own hc hcm hone
      · obtain ⟨held, hthin, hsub⟩ := discardGappedDescendants_thinned σ₁.log child.entryHash
        refine .waiting (hup'.thinned ⟨held, hthin, hsub⟩) htail ?_
        rw [← hw]
        show (discardGappedDescendants σ₁.log child.entryHash).2.chainTips.lookup d = _
        rw [hthin, htips]
        rfl
      · cases hsome.1

theorem Promoting.turn (h : Promoting d chain a) (hc : HonestChain stream d chain)
    (ht : ingestTurn bound ctx d a = .inl a') : Promoting d chain a' := by
  unfold ingestTurn at ht
  cases h with
  | settled _ htail _ =>
    rw [htail] at ht
    cases ht
  | behind hup z hz htail hw =>
    rw [htail] at ht
    simp only at ht
    split at ht
    · cases ht
    · cases ht
    rename_i b hb
    -- the slot before the stored entry is taken by it: its siblings are not on the chain
    have hsib : b.store = a.store := by
      split at hb
      · rename_i prev hprev
        obtain ⟨p, hp, hph⟩ := hc.prev_mem hz hprev
        have hnone : ∀ g, ¬ HeldChild a.store.log d prev g := by
          rintro g ⟨hg, hdev, hgp⟩
          have hgc : g ∈ chain := (hup.held g hg).mem hdev
          rw [← hph] at hprev hgp
          obtain rfl := hc.child_unique hp hz hprev hgc hgp
          exact hup.witness_not_held hc hz hw hg
        refine (drainChildren_rule (fun b => b.store = a.store) (fun b b' hi hturn => ?_) rfl hb).1
        rw [drainTurn_over (hi ▸ hnone)] at hturn
        cases hturn
      · cases hb
        rfl
    split at ht
    · cases ht
    · cases ht
    rename_i next hnext
    cases ht
    have hthin := discardForeignChainCitations_thinned b.store.log d z.entryHash
    rw [hsib] at hnext hthin
    obtain ⟨held, hlog, hsub⟩ := hthin
    have hw' : (discardForeignChainCitations a.store.log d z.entryHash).2.chainWitness d =
        some z.cursor := by
      rw [← hw, hlog]
      rfl
    obtain ⟨hdrains, hno⟩ := drainChildren_rule (Drains d chain z) (fun _ _ h ht => h.turn hc hz ht)
      (.waiting (hup.thinned ⟨held, hlog, hsub⟩) rfl hw') hnext
    cases hdrains with
    | waiting hup' htail' hwz =>
      refine .settled hup' htail' fun e he hdev w hwit hprev => ?_
      rw [hwz] at hwit
      cases hwit
      exact hno e ⟨he, hdev, hprev⟩
    | moved hup' y hy hp htail' hwy => exact .behind hup' y hy htail' hwy

theorem ingest_own (h : Upholds d chain σ.log) (hd : Drained σ.log d)
    (hc : HonestChain stream d chain) (hv : v ∈ chain)
    (hi : ingest bound ctx σ v advertised = some (.ok (report, σ'))) :
    Upholds d chain σ'.log ∧ Drained σ'.log d := by
  unfold ingest at hi
  rw [hc.device v hv] at hi
  split at hi
  · cases hi
  split at hi
  · cases hi
  rename_i outcome tail σ₁ hone
  split at hi
  · cases hi
  · cases hi
  rename_i a ha
  cases hi
  have hstart : Promoting d chain ⟨tail, [], σ₁⟩ := by
    obtain ⟨hup, ⟨htail, -, htips, hgap⟩ | ⟨htail, -, hw⟩⟩ := h.ingestOne_own hc hv hone
    · refine .settled hup htail fun e he hdev w hw => ?_
      have hwit : σ.log.chainWitness d = some w := by
        rw [← hw]
        show σ.log.chainTips.lookup d = σ₁.log.chainTips.lookup d
        rw [htips]
      rcases hgap e he with hold | ⟨rfl, hfit⟩
      · exact hd e hold hdev w hwit
      · exact ((h.of_gap hc hv hfit).2 w hwit).2
    · exact .behind hup v hv htail hw
  obtain ⟨b, hb, hout⟩ := loop_rule (Promoting d chain) (fun _ _ h ht => h.turn hc ht) hstart
    (Option.join_eq_some_iff.mp ha)
  obtain ⟨rfl, hnone⟩ := ingestTurn_out hout
  cases hb with
  | settled hup _ hdr => exact ⟨hup, hdr⟩
  | behind _ _ _ htail _ =>
    rw [hnone] at htail
    cases htail

/-- The device's chain is as it was, and no more of it is held. -/
structure Untouched (d : DeviceFingerprint) (log log' : ChainLog) : Prop where
  chain : log'.chainOf d = log.chainOf d
  witness : log'.chainWitness d = log.chainWitness d
  floor : log'.retainedFloors d = log.retainedFloors d
  held : ∀ g ∈ log'.gapped, g.device = d → g ∈ log.gapped

theorem Untouched.refl (log : ChainLog) : Untouched d log log := ⟨rfl, rfl, rfl, fun _ hg _ => hg⟩

theorem Untouched.trans (h : Untouched d log₁ log₂) (h' : Untouched d log₂ log₃) :
    Untouched d log₁ log₃ :=
  ⟨h'.chain.trans h.chain, h'.witness.trans h.witness, h'.floor.trans h.floor,
    fun g hg hd => h.held g (h'.held g hg hd) hd⟩

theorem Drained.untouched (h : Drained log d) (hu : Untouched d log log') : Drained log' d := by
  intro e he hd
  rw [hu.witness]
  exact h e (hu.held e he hd) hd

theorem Untouched.thinned (h : Thinned log log') : Untouched d log log' := by
  obtain ⟨held, rfl, hsub⟩ := h
  exact ⟨rfl, rfl, rfl, fun g hg _ => hsub.subset hg⟩

theorem ingestOne_untouched (hs : ∀ d, Sound σ.log d) (hne : v.device ≠ d)
    (hone : ingestOne ctx σ v advertised = .ok (outcome, accepted, σ')) :
    Untouched d σ.log σ'.log := by
  obtain ⟨o, hstep, -⟩ := (ingestOne_ingestsOne hone).step
  cases hstep with
  | held _ ha hf ht hg =>
    refine ⟨chainOf_congr ha d, chainWitness_congr ht d, congrFun hf d, fun g hmem hd => ?_⟩
    rcases hg g hmem with hold | ⟨rfl, -⟩
    · exact hold
    · exact absurd hd hne
  | stored _ _ _ _ ha hf ht hg =>
    exact ⟨chainOf_store_ne ha hne, chainWitness_raise_ne ht hne, congrFun hf d,
      fun g hmem _ => (hg g hmem).1⟩
  | adopted _ _ _ hadopt ha hf ht hg =>
    refine ⟨chainOf_store_ne ha hne, chainWitness_raise_ne ht hne, ?_, fun g hmem _ => (hg g hmem).1⟩
    rw [hf, floors_of_adoptable (hs v.device) hadopt, Function.update_of_ne (Ne.symm hne)]

theorem Upholds.ingestOne_other (h : Upholds d chain σ.log) (hne : v.device ≠ d)
    (hp : Placed d chain v) (hone : ingestOne ctx σ v advertised = .ok (outcome, accepted, σ')) :
    Upholds d chain σ'.log ∧ Untouched d σ.log σ'.log := by
  have hun := ingestOne_untouched h.sound hne hone
  obtain ⟨o, hstep, -⟩ := (ingestOne_ingestsOne hone).step
  have htouch : Touch ctx.scope (fun e => e = v) σ σ' :=
    touch_of_ingestsOne (ingestOne_ingestsOne hone) (.inr rfl)
  refine ⟨h.keep (hstep.chainStep.sound h.sound) (fun e he => ?_) (fun e he => ?_) hun.held
    hun.witness hstep.elsewhere, hun⟩
  · rcases htouch.accepted e he with hold | hold | rfl
    · exact h.stored e hold
    · exact h.held e hold
    · exact hp
  · rcases htouch.gapped e he with hold | rfl
    · exact h.held e hold
    · exact hp

theorem Promotes.other (hprom : Promotes ctx device σ σ') (hne : device ≠ d)
    (h : Upholds d chain σ.log) : Upholds d chain σ'.log ∧ Untouched d σ.log σ'.log := by
  induction hprom with
  | refl => exact ⟨h, .refl _⟩
  | thin _ hthin ih => exact ⟨ih.1.thinned hthin, ih.2.trans (.thinned hthin)⟩
  | @child σ₁ _ child _ _ _ hmem hdev hone ih =>
    have hdrop := thinned_dropGapped σ₁.log child.entryHash
    obtain ⟨hup, hun⟩ := (ih.1.thinned hdrop).ingestOne_other (hdev ▸ hne) (ih.1.held _ hmem) hone
    exact ⟨hup, (ih.2.trans (.thinned hdrop)).trans hun⟩

theorem ingest_other (h : Upholds d chain σ.log) (hne : v.device ≠ d) (hp : Placed d chain v)
    (hi : ingest bound ctx σ v advertised = some (.ok (report, σ'))) :
    Upholds d chain σ'.log ∧ Untouched d σ.log σ'.log := by
  obtain ⟨outcome, accepted, σ₁, hone, hprom, -⟩ := ingest_promotes hi
  obtain ⟨hup, hun⟩ := h.ingestOne_other hne hp hone
  obtain ⟨hup', hun'⟩ := hprom.other hne hup
  exact ⟨hup', hun.trans hun'⟩

theorem ingest_upholds (h : Upholds d chain σ.log) (hd : Drained σ.log d)
    (hc : HonestChain stream d chain) (hp : Placed d chain v)
    (hi : ingest bound ctx σ v advertised = some (.ok (report, σ'))) :
    Upholds d chain σ'.log ∧ Drained σ'.log d := by
  by_cases hdev : v.device = d
  · exact ingest_own h hd hc (hp.mem hdev) hi
  · obtain ⟨hup, hun⟩ := ingest_other h hdev hp hi
    exact ⟨hup, hd.untouched hun⟩

end Arrival

/-! ## 3. Every run -/

/-- What the operation brings of the device lies on the chain, and nothing else comes under a hash
    of it; an authored entry is new; and no other stream holds a hash of the chain. -/
structure StreamOp.Upheld (sc : Scope) (d : DeviceFingerprint) (chain : List VerifiedEntry)
    (σ : StreamStore) (op : StreamOp) : Prop where
  brings : ∀ σ' new, streamStep sc σ op = some (σ', new) → ∀ e, op.Brings new e → Placed d chain e
  fresh : ∀ device hash rowOp addressable, op = .author device hash rowOp addressable →
    ∀ e ∈ σ.log.gapped, e.entryHash ≠ hash ∧ e.prevHash ≠ some hash
  apart : ∀ elsewhere, op = .otherStreams elsewhere → ∀ c ∈ chain, elsewhere c.entryHash = false

section Run

variable {sc : Scope}

theorem upholds_empty : Upholds d chain StreamStore.empty.log :=
  ⟨sound_empty _, nofun, nofun, fun _ _ => rfl, nofun, nofun⟩

theorem Upholds.step {σ σ' : StreamStore} {op : StreamOp} (h : Upholds d chain σ.log)
    (hd : Drained σ.log d) (hc : HonestChain stream d chain) (hok : op.Upheld sc d chain σ)
    (hs : streamStep sc σ op = some (σ', new)) : Upholds d chain σ'.log ∧ Drained σ'.log d := by
  have hsound := (streamStep_touches h.sound hs).sound h.sound
  cases streamStep_stepped h.sound hs with
  | dropped | waits => exact ⟨h, hd⟩
  | ingested _ hing =>
    rw [settleCoverage_toReplica]
    exact ingest_upholds h hd hc (hok.brings _ _ hs _ (.inl ⟨_, _, _, rfl, rfl⟩)) hing
  | @authored _ v device rowOp addressable hv =>
    have hp : Placed d chain v := hok.brings σ' _ hs v (.inr mem_cons_self)
    have hfresh := hok.fresh device v.entryHash rowOp addressable rfl
    by_cases hdev : v.device = d
    · have hg : ∀ g ∈ σ'.log.gapped, g ∈ σ.log.gapped ∧ g.entryHash ≠ v.entryHash := by
        intro g hg
        rw [hv.gapped] at hg
        exact ⟨hg, (hfresh g hg).1⟩
      obtain ⟨hup, hwit⟩ := h.store hc (hp.mem hdev) (.inl hv.continues) hsound hv.accepted hv.tips
        hg hv.elsewhere
      refine ⟨hup, fun e he _ w hw => ?_⟩
      rw [hwit] at hw
      cases hw
      rw [hv.gapped] at he
      exact (hfresh e he).2
    · have hwit := chainWitness_raise_ne hv.tips hdev
      refine ⟨h.keep hsound ?_ (hv.gapped ▸ h.held) (hv.gapped ▸ fun _ hg _ => hg) hwit
        hv.elsewhere, fun e he => ?_⟩
      · rw [hv.accepted, forall_mem_append, forall_mem_singleton]
        exact ⟨h.stored, hp⟩
      · rw [hv.gapped] at he
        rw [hwit]
        exact hd e he
  | replayed _ hsame =>
    exact ⟨h.same hsame, hd.lessen (hsame.gapped ▸ List.Subset.refl _) hsame.tips⟩
  | compacted _ hcomp =>
    obtain ⟨-, -, hsub, hgapped, htips, hels, -⟩ := compactChainPrefix_chainStep hcomp
    exact ⟨h.lessen hsound hsub.subset hgapped htips hels, hd.lessen hgapped htips⟩
  | plain hop hkind =>
    cases op with
    | purge =>
      cases hop
      exact ⟨h.lessen hsound (nil_subset _) (nil_subset _) rfl rfl, nofun⟩
    | localWork table rows published =>
      cases hop
      exact ⟨h, hd⟩
    | expire keep =>
      cases hop
      have hsub := filter_sublist (p := keep) (l := σ.log.gapped)
      exact ⟨h.thinned ⟨_, rfl, hsub⟩, hd.lessen hsub.subset rfl⟩
    | otherStreams elsewhere =>
      cases hop
      exact ⟨⟨hsound, h.stored, h.held, hok.apart elsewhere rfl, h.witness, h.waits⟩, hd⟩
    | _ => cases hkind

theorem StreamReached.upheld {σ : StreamStore}
    (h : StreamReached sc (fun σ op => op.Upheld sc d chain σ) σ authored)
    (hc : HonestChain stream d chain) : Upholds d chain σ.log ∧ Drained σ.log d := by
  induction h with
  | start => exact ⟨upholds_empty, nofun⟩
  | step _ op hok hs ih => exact ih.1.step ih.2 hc hok hs

end Run

/-! ## 4. Entries that move the tail -/

/-- The tail stands at or above the lamport. -/
def TailPast (log : ChainLog) (d : DeviceFingerprint) (lamport : Nat) : Prop :=
  ∃ t, log.chainTail d = some t ∧ lamport ≤ t.lamport

/-- An entry the chain takes or has taken: not above the tail, citing the witness, the first of an
    unknown chain, the witness of a purged one, or offered as the floor. -/
inductive Comes (log : ChainLog) (x : VerifiedEntry) (advertised : Option ChainCursor) : Prop where
  | passed (h : TailPast log x.device x.lamport)
  | next (w : ChainCursor) (hw : log.chainWitness x.device = some w)
      (hp : x.prevHash = some w.entryHash)
  | first (hw : log.chainWitness x.device = none) (hp : x.prevHash = none)
  | again (ht : log.chainTail x.device = none) (hw : log.chainWitness x.device = some x.cursor)
  | floor (hadv : advertised = some x.cursor)
      (hw : log.chainTail x.device = none → ∀ w, log.chainWitness x.device = some w →
        x.cursor = w ∨ w.lamport < x.lamport)

theorem Sound.tailPast (h : Sound log d) (he : e ∈ log.chainOf d) (hle : n ≤ e.lamport) :
    TailPast log d n := by
  cases ht : log.chainTail d with
  | none =>
    rw [h.chainOf_eq_nil ht] at he
    cases he
  | some t => exact ⟨t, ht, hle.trans (h.lamport_le_tail ht he)⟩

theorem Sound.mem_of_tail (h : Sound log d) {t : ChainCursor} (ht : log.chainTail d = some t) :
    ∃ e ∈ log.chainOf d, e.cursor = t := by
  rw [chainTail_eq h.rises, Option.map_eq_some_iff] at ht
  obtain ⟨z, hz, hcur⟩ := ht
  exact ⟨z, mem_of_getLast? hz, hcur⟩

theorem TailPast.grow (hp : TailPast log d n) (hs : Sound log d) (hs' : Sound log' d)
    (hsub : log.chainOf d ⊆ log'.chainOf d) : TailPast log' d n := by
  obtain ⟨t, ht, hle⟩ := hp
  obtain ⟨e, he, rfl⟩ := hs.mem_of_tail ht
  exact hs'.tailPast (hsub he) hle

theorem classify_stores_of_comes (h : Upholds d chain log) (hc : HonestChain stream d chain)
    (hx : x ∈ chain) (hcomes : Comes log x advertised) :
    TailPast log d x.lamport ∨ classify log x advertised = .rootAdopt ∨
      classify log x advertised = .ok ∨ classify log x advertised = .restore := by
  obtain rfl := hc.device x hx
  by_cases hadopts : adoptsFloor log x advertised = true
  · exact .inr (.inl (if_pos hadopts))
  have hfit : classify log x advertised = _ := if_neg hadopts
  cases hcomes with
  | passed hpast => exact .inl hpast
  | next w hw hp =>
    obtain ⟨c, hcm, rfl⟩ := h.witness w hw
    have hlt : c.cursor.lamport < x.lamport := hc.prev_lt hcm hx hp
    refine .inr (.inr (.inl ?_))
    rw [hfit, hw]
    cases ht : log.chainTail x.device with
    | none =>
      show fitWitness c.cursor x = .ok
      unfold fitWitness
      rw [if_neg (by omega), hp]
      exact if_pos ⟨rfl, hlt⟩
    | some t =>
      have heq := (h.sound _).tail t ht
      rw [hw] at heq
      cases heq
      show fitTail log x = .ok
      unfold fitTail
      rw [hp, ht]
      exact if_pos ⟨rfl, hlt⟩
  | first hw hp =>
    refine .inr (.inr (.inl ?_))
    have ht : log.chainTail x.device = none := by
      cases ht : log.chainTail x.device with
      | none => rfl
      | some t =>
        rw [(h.sound _).tail t ht] at hw
        cases hw
    rw [hfit, hw, ht]
    show fitTail log x = .ok
    unfold fitTail
    rw [hp, ht]
  | again ht hw =>
    refine .inr (.inr (.inr ?_))
    rw [hfit, hw, ht]
    show fitWitness x.cursor x = .restore
    exact if_pos ⟨rfl, rfl⟩
  | floor hadv hw =>
    -- the floor is not adoptable only where the tail has passed it
    refine .inl ?_
    subst hadv
    have hno : adoptable log x.device x.cursor ≠ true := fun hyes =>
      hadopts (decide_eq_true ⟨rfl, hyes⟩)
    unfold adoptable at hno
    cases ht : log.chainTail x.device with
    | some t =>
      rw [ht] at hno
      simp only [ne_eq, decide_eq_true_eq, not_lt] at hno
      exact ⟨t, ht, hno⟩
    | none =>
      exfalso
      rw [ht] at hno
      cases hwit : log.chainWitness x.device with
      | none =>
        rw [hwit] at hno
        exact hno rfl
      | some w =>
        rw [hwit] at hno
        simp only [ne_eq, decide_eq_true_eq] at hno
        exact hno (hw ht w hwit)

theorem accept_stores {ctx : AcceptCtx} {o : AcceptOutcome} (h : Upholds d chain log)
    (hd : Drained log d) (hc : HonestChain stream d chain) (hx : x ∈ chain)
    (hwriter : ctx.effectiveWriter d = true) (hcomes : Comes log x advertised)
    (hacc : acceptRowEntry ctx log x advertised = .ok (o, log')) :
    TailPast log d x.lamport ∨ o.stores = true := by
  have hdev := hc.device x hx
  have hfit := classify_stores_of_comes h hc hx hcomes
  cases (acceptRowEntry_accepts hacc).2 with
  | known hknown =>
    left
    obtain ⟨p, hmem, heq⟩ := (entryExists_iff.mp hknown).resolve_right (by simp [h.elsewhere x hx])
    obtain rfl := (h.stored p hmem).eq_of_hash hc hx heq
    exact (h.sound d).tailPast (mem_filter.mpr ⟨hmem, decide_eq_true hdev⟩) le_rfl
  | below hbelow =>
    left
    cases hf : log.retainedFloors x.device with
    | none =>
      rw [belowFloor_of_none hf] at hbelow
      cases hbelow
    | some f =>
      rw [belowFloor_of_some hf] at hbelow
      have hlt' : x.lamport < f.lamport := of_decide_eq_true hbelow
      rw [hdev] at hf
      obtain ⟨e, he, rfl⟩ := (h.sound d).floor f hf
      exact (h.sound d).tailPast he hlt'.le
  | outsider hout =>
    rw [hdev, hwriter] at hout
    cases hout
  | again hgap hroot =>
    -- held, and so none of those that come, but for a floor the tail has passed
    left
    obtain ⟨g, hg, heq⟩ := any_eq_true.mp hgap
    obtain rfl := (h.held g hg).eq_of_hash hc hx (of_decide_eq_true heq)
    obtain ⟨hprev, habove⟩ := h.waits g hg hdev
    cases hcomes with
    | passed hpast => exact hdev ▸ hpast
    | next w hw hp => exact absurd hp (hd g hg hdev w (hdev ▸ hw))
    | first _ hp =>
      rw [hp] at hprev
      cases hprev
    | again _ hw => exact absurd (habove _ (hdev ▸ hw)) (lt_irrefl _)
    | floor hadv _ =>
      subst hadv
      have hbehind : aheadOfTail log g ≠ true := fun hahead =>
        of_decide_eq_false hroot ⟨rfl, hahead⟩
      unfold aheadOfTail at hbehind
      cases ht : log.chainTail g.device with
      | none =>
        rw [ht] at hbehind
        exact absurd rfl hbehind
      | some t =>
        rw [ht] at hbehind
        exact ⟨t, hdev ▸ ht, not_lt.mp fun hlt => hbehind (decide_eq_true hlt)⟩
  | adopts hv _ _ hr | stores hv _ _ hr =>
    right
    rw [(Prod.mk.inj hr).1]
    exact storedOutcome_stores ctx x hv.lt
  | holds _ hgap | forks _ hgap =>
    rw [hgap] at hfit
    exact hfit.imp_right nofun

theorem ingest_chainOf_subset (hi : ingest bound ctx σ x advertised = some (.ok (report, σ'))) :
    σ.log.chainOf d ⊆ σ'.log.chainOf d := by
  have hsub : σ.log.accepted ⊆ σ'.log.accepted := by
    cases ingest_arrives hi with
    | grown new _ ha | adopted new _ _ ha =>
      rw [ha]
      exact subset_append_left _ _
  intro e he
  obtain ⟨hmem, hdev⟩ := mem_filter.mp he
  exact mem_filter.mpr ⟨hsub hmem, hdev⟩

theorem Promotes.witness_of_nil (hprom : Promotes ctx d σ σ') (h : Upholds d chain σ.log)
    (hc : HonestChain stream d chain) :
    Upholds d chain σ'.log ∧
      (σ'.log.chainOf d = [] → σ'.log.chainWitness d = σ.log.chainWitness d) := by
  induction hprom with
  | refl => exact ⟨h, fun _ => rfl⟩
  | thin _ hthin ih =>
    refine ⟨ih.1.thinned hthin, ?_⟩
    obtain ⟨held, rfl, -⟩ := hthin
    exact ih.2
  | @child σ₁ σ₂ child _ _ _ hmem hdev hone ih =>
    have hcm : child ∈ chain := (ih.1.held child hmem).mem hdev
    have hdrop := ih.1.thinned (thinned_dropGapped σ₁.log child.entryHash)
    obtain ⟨hup, ⟨-, ha, htips, -⟩ | ⟨-, ha, -⟩⟩ := hdrop.ingestOne_own hc hcm hone
    · refine ⟨hup, fun hnil => ?_⟩
      rw [chainOf_congr ha] at hnil
      exact (chainWitness_congr htips d).trans (ih.2 hnil)
    · refine ⟨hup, fun hnil => ?_⟩
      subst hdev
      rw [chainOf_store_self ha] at hnil
      exact absurd hnil (by simp)

theorem ingest_witness (h : Upholds d chain σ.log) (hc : HonestChain stream d chain)
    (hx : x ∈ chain) (hi : ingest bound ctx σ x advertised = some (.ok (report, σ')))
    (hnil : σ'.log.chainOf d = []) : σ'.log.chainWitness d = σ.log.chainWitness d := by
  obtain rfl := hc.device x hx
  obtain ⟨outcome, accepted, σ₁, hone, hprom, -⟩ := ingest_promotes hi
  obtain ⟨new, ha', -⟩ := hprom.grows
  obtain ⟨hup, ⟨-, -, htips, -⟩ | ⟨-, ha, -⟩⟩ := h.ingestOne_own hc hx hone
  · rw [(hprom.witness_of_nil hup hc).2 hnil]
    exact chainWitness_congr htips _
  · rw [chainOf_append ha', chainOf_store_self ha] at hnil
    exact absurd hnil (by simp)

theorem ingest_reaches (h : Upholds d chain σ.log) (hd : Drained σ.log d)
    (hc : HonestChain stream d chain) (hx : x ∈ chain) (hwriter : ctx.effectiveWriter d = true)
    (hcomes : Comes σ.log x advertised)
    (hi : ingest bound ctx σ x advertised = some (.ok (report, σ'))) :
    TailPast σ'.log d x.lamport := by
  have hdev := hc.device x hx
  have hup := (ingest_own h hd hc hx hi).1
  obtain ⟨outcome, accepted, σ₁, hone, hprom, -⟩ := ingest_promotes hi
  obtain ⟨o, log, hacc, -, haccd, -⟩ := accept_of_ingestOne hone
  rcases accept_stores h hd hc hx hwriter hcomes hacc with hpast | hstores
  · exact hpast.grow (h.sound d) (hup.sound d) (ingest_chainOf_subset hi)
  obtain ⟨-, hnone | ⟨-, ha, -⟩⟩ := h.ingestOne_own hc hx hone
  · rw [haccd, hstores] at hnone
    cases hnone.1
  obtain ⟨new, ha', -⟩ := hprom.grows
  have hmem : x ∈ σ'.log.accepted := by
    rw [ha', ha]
    exact mem_append_left _ (mem_append_right _ mem_cons_self)
  exact (hup.sound d).tailPast (mem_filter.mpr ⟨hmem, decide_eq_true hdev⟩) le_rfl

/-- **A chain not known takes no entry with a predecessor**, unless it is offered as a floor. -/
theorem ingest_strands (h : Upholds d chain σ.log) (hc : HonestChain stream d chain)
    (hx : x ∈ chain) (hwit : σ.log.chainWitness d = none) (hprev : x.prevHash ≠ none)
    (hadv : advertised ≠ some x.cursor)
    (hi : ingest bound ctx σ x advertised = some (.ok (report, σ'))) :
    σ'.log.chainWitness d = none := by
  obtain rfl := hc.device x hx
  obtain ⟨outcome, accepted, σ₁, hone, -, hkept⟩ := ingest_promotes hi
  obtain ⟨o, hstep, haccd⟩ := (ingestOne_ingestsOne hone).step
  have hnot : o.stores = false := by
    cases hstep with
    | held ho => exact ho
    | adopted _ _ hadv' => exact absurd hadv' hadv
    | stored _ _ _ hext =>
      cases hext with
      | genesis _ _ hp => exact absurd hp hprev
      | next t ht =>
        rw [(h.sound _).tail t ht] at hwit
        cases hwit
      | restore _ hw | past _ _ hw =>
        rw [hw] at hwit
        cases hwit
  rw [hnot] at haccd
  obtain ⟨-, ⟨-, -, htips, -⟩ | hsome⟩ := h.ingestOne_own hc hx hone
  · rw [hkept haccd]
    exact (chainWitness_congr htips _).trans hwit
  · rw [haccd] at hsome
    cases hsome.1

end RagRat.TableSync
