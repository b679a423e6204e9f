/-
  File:      RagRat/TableSync/Continuity.lean
  Subject:   CHAIN CONTINUITY: what the operations of the store may do to the accepted entries, the
             floors and the tip witnesses of a stream, and the shape all of them keep.

  * `ChainStep` -- everything an operation can do to a log: leave it, extend a chain at its tail or
    its witness, adopt a root, drop a prefix below a floor, purge;
  * `acceptRowEntry_step`, `authorRowEntry_extends`, `compactChainPrefix_chainStep` -- the operations
    are such steps;
  * `ChainStep.sound`, `ChainStep.witness_le` -- every step keeps `Sound` and lowers no witness.
-/
import Mathlib.Data.List.Chain
import RagRat.TableSync.Engine

namespace RagRat.TableSync

open List
open Lib.Ascending
open Function List.IsChain

variable {log log' log₁ log₂ : ChainLog} {d device : DeviceFingerprint} {hash : EntryHash}
  {new : List VerifiedEntry} {e v floor : VerifiedEntry} {t f w c : ChainCursor}
  {advertised : Option ChainCursor} {o : AcceptOutcome} {sc : Scope} {σ σ' : Replica}

/-! ## 1. A device's chain -/

namespace ChainLog

variable (log : ChainLog) (device : DeviceFingerprint)

/-- The accepted entries, without their projection state. -/
def accepted : List VerifiedEntry := log.entries.map (·.toVerifiedEntry)

/-- The accepted entries of one device. -/
def chainOf : List VerifiedEntry := log.accepted.filter fun e => e.device = device

/-- The part of the chain at or above its recorded floor: all of it when there is none. -/
def pathOf : List VerifiedEntry := (log.chainOf device).filter fun e => !log.belowFloor device e.lamport

end ChainLog

open ChainLog

/-- The later entry names the earlier one as its predecessor. -/
def Links (a b : VerifiedEntry) : Prop := b.prevHash = some a.entryHash

/-- **The shape of a chain**: its lamports ascend, from the stored floor on it is linked, and its
    stored tail is the retained witness. -/
structure Sound (log : ChainLog) (d : DeviceFingerprint) : Prop where
  rises : Rises (·.lamport) (log.chainOf d)
  linked : (log.pathOf d).IsChain Links
  floor : ∀ f, log.retainedFloors d = some f → ∃ e ∈ log.chainOf d, e.cursor = f
  tail : ∀ t, log.chainTail d = some t → log.chainWitness d = some t

theorem entryExists_iff : log.entryExists hash = true ↔
    (∃ e ∈ log.accepted, e.entryHash = hash) ∨ log.elsewhere hash = true := by
  simp [entryExists, accepted]

theorem chainTail_eq_foldl (log : ChainLog) (d : DeviceFingerprint) :
    log.chainTail d = (log.chainOf d).foldl
      (fun tail e => match tail with
        | some t => if t.lamport < e.lamport then some e.cursor else some t
        | none => some e.cursor) none := by
  unfold chainTail chainOf accepted
  rw [filter_map, foldl_map]
  rfl

theorem chainTail_eq (h : Rises (·.lamport) (log.chainOf d)) :
    log.chainTail d = (log.chainOf d).getLast?.map VerifiedEntry.cursor := by
  rw [chainTail_eq_foldl]
  exact foldl_highest (k := ChainCursor.lamport) (fun _ => rfl) (fun _ _ => rfl) (fun _ => rfl) h

theorem Sound.chainOf_eq_nil (h : Sound log d) (ht : log.chainTail d = none) :
    log.chainOf d = [] := by
  rw [chainTail_eq h.rises, Option.map_eq_none_iff] at ht
  exact getLast?_eq_none_iff.mp ht

theorem Sound.lamport_le_tail (h : Sound log d) (ht : log.chainTail d = some t)
    (he : e ∈ log.chainOf d) : e.lamport ≤ t.lamport := by
  rw [chainTail_eq h.rises, Option.map_eq_some_iff] at ht
  obtain ⟨z, hz, rfl⟩ := ht
  exact h.rises.key_le_last hz he

theorem Sound.le_witness (h : Sound log d) (he : e ∈ log.chainOf d) :
    ∃ w, log.chainWitness d = some w ∧ e.lamport ≤ w.lamport := by
  cases ht : log.chainTail d with
  | none =>
    rw [h.chainOf_eq_nil ht] at he
    cases he
  | some t => exact ⟨t, h.tail t ht, h.lamport_le_tail ht he⟩

theorem belowFloor_eq (hf : log'.retainedFloors d = log.retainedFloors d) (n : Nat) :
    log'.belowFloor d n = log.belowFloor d n := by
  unfold belowFloor retainedFloor
  rw [hf]

theorem belowFloor_of_none (hf : log.retainedFloors d = none) (n : Nat) :
    log.belowFloor d n = false := by
  unfold belowFloor retainedFloor
  rw [hf]
  rfl

theorem belowFloor_of_some (hf : log.retainedFloors d = some f) (n : Nat) :
    log.belowFloor d n = decide (n < f.lamport) := by
  unfold belowFloor retainedFloor
  rw [hf]
  rfl

theorem pathOf_suffix (h : Rises (·.lamport) (log.chainOf d)) : log.pathOf d <:+ log.chainOf d := by
  unfold pathOf
  cases hf : log.retainedFloors d with
  | none => simp [belowFloor_of_none hf]
  | some f =>
    have hfilter : (log.chainOf d).filter (fun e => !log.belowFloor d e.lamport) =
        (log.chainOf d).filter fun e => f.lamport ≤ e.lamport :=
      filter_congr fun e _ => by
        rw [belowFloor_of_some hf, ← decide_not, decide_eq_decide, not_lt]
    rw [hfilter]
    exact h.filter_suffix f.lamport

theorem Sound.congr (h : Sound log d) (hc : log'.chainOf d = log.chainOf d)
    (hf : log'.retainedFloors d = log.retainedFloors d)
    (hw : log'.chainWitness d = log.chainWitness d) : Sound log' d where
  rises := hc ▸ h.rises
  linked := by
    have hpath : log'.pathOf d = log.pathOf d := by
      unfold pathOf
      rw [hc]
      exact filter_congr fun e _ => by rw [belowFloor_eq hf]
    rw [hpath]
    exact h.linked
  floor := by
    rw [hf, hc]
    exact h.floor
  tail := by
    rw [chainTail_eq_foldl, hc, ← chainTail_eq_foldl, hw]
    exact h.tail

/-! ## 2. What an operation can do to a log -/

/-- **Everything an operation can do to the chains of a log**; what is held is left open. -/
inductive ChainStep (log log' : ChainLog) : Prop where
  | kept (ha : log'.accepted = log.accepted) (hf : log'.retainedFloors = log.retainedFloors)
      (ht : log'.chainTips = log.chainTips)
  | stored (v : VerifiedEntry) (hext : Extends log v) (ha : log'.accepted = log.accepted ++ [v])
      (hf : log'.retainedFloors = log.retainedFloors)
      (ht : log'.chainTips = (log.raiseTip v).chainTips)
  | adopted (v : VerifiedEntry) (hadopt : adoptable log v.device v.cursor = true)
      (ha : log'.accepted = log.accepted ++ [v])
      (hf : log'.retainedFloors = (log.recordFloor v.device v.cursor).retainedFloors)
      (ht : log'.chainTips = (log.raiseTip v).chainTips)
  | compacted (device : DeviceFingerprint) (floor : VerifiedEntry)
      (hmem : floor ∈ log.chainOf device)
      (habove : ∀ f, log.retainedFloors device = some f → f.lamport < floor.lamport)
      (hsub : log'.accepted.Sublist log.accepted)
      (hkeep : ∀ p : VerifiedEntry → Bool,
        (∀ e ∈ log.accepted, p e = true → ¬ (e.device = device ∧ e.lamport < floor.lamport)) →
          log'.accepted.filter p = log.accepted.filter p)
      (hf : log'.retainedFloors = update log.retainedFloors device (some floor.cursor))
      (ht : log'.chainTips = log.chainTips)
  | purged (ha : log'.accepted = []) (hf : log'.retainedFloors = fun _ => none)
      (ht : log'.chainTips = log.chainTips)

theorem insertEntry_accepted (log : ChainLog) (e : StoredEntry) :
    (log.insertEntry e).accepted = log.accepted ++ [e.toVerifiedEntry] := by
  simp [accepted]

theorem raiseTip_chainTips_congr (h : log'.chainTips = log.chainTips) (v : VerifiedEntry) :
    (log'.raiseTip v).chainTips = (log.raiseTip v).chainTips := by
  unfold raiseTip chainWitness
  rw [h]
  cases log.chainTips.lookup v.device with
  | none => rfl
  | some tip =>
    simp only
    split
    · rfl
    · exact h

section

variable (log : ChainLog) (e : StoredEntry)

@[simp] theorem insertEntry_gapped : (log.insertEntry e).gapped = log.gapped := by
  rw [insertEntry_eq]

@[simp] theorem insertEntry_elsewhere : (log.insertEntry e).elsewhere = log.elsewhere := by
  rw [insertEntry_eq]

theorem insertEntry_chainTips :
    (log.insertEntry e).chainTips = (log.raiseTip e.toVerifiedEntry).chainTips := by
  have htips : { log with entries := log.entries ++ [e] }.chainTips = log.chainTips := rfl
  exact raiseTip_chainTips_congr htips _

end

/-! ## 3. The operations are such steps -/

/-- **What accepting an entry can do**: hold entries, extend the chain, or adopt the advertised
    root. -/
inductive AcceptStep (ctx : AcceptCtx) (log : ChainLog) (v : VerifiedEntry)
    (advertised : Option ChainCursor) (o : AcceptOutcome) (log' : ChainLog) : Prop where
  | held (ho : o.stores = false) (ha : log'.accepted = log.accepted)
      (hf : log'.retainedFloors = log.retainedFloors) (ht : log'.chainTips = log.chainTips)
      (hg : ∀ g ∈ log'.gapped, g ∈ log.gapped ∨ (g = v ∧ classify log v advertised = .gap))
      (he : log'.elsewhere = log.elsewhere)
  | stored (hlt : v.lamport < maxEntryLamport) (ho : o = (storedOutcome ctx v hlt).1)
      (hno : adoptsFloor log v advertised = false) (hext : Extends log v)
      (ha : log'.accepted = log.accepted ++ [v]) (hf : log'.retainedFloors = log.retainedFloors)
      (ht : log'.chainTips = (log.raiseTip v).chainTips)
      (hg : ∀ g ∈ log'.gapped, g ∈ log.gapped ∧ g.entryHash ≠ v.entryHash)
      (he : log'.elsewhere = log.elsewhere)
  | adopted (hlt : v.lamport < maxEntryLamport) (ho : o = (storedOutcome ctx v hlt).1)
      (hadv : advertised = some v.cursor) (hadopt : adoptable log v.device v.cursor = true)
      (ha : log'.accepted = log.accepted ++ [v])
      (hf : log'.retainedFloors = (log.recordFloor v.device v.cursor).retainedFloors)
      (ht : log'.chainTips = (log.raiseTip v).chainTips)
      (hg : ∀ g ∈ log'.gapped, g ∈ log.gapped ∧ g.entryHash ≠ v.entryHash)
      (he : log'.elsewhere = log.elsewhere)
      (hswept : ∀ g ∈ log'.gapped, g.device = v.device → v.lamport ≤ g.lamport)

section Operations

variable {ctx : AcceptCtx}

theorem storeEntry_eq (ctx : AcceptCtx) (base : ChainLog) (v : VerifiedEntry)
    (h : v.lamport < maxEntryLamport) :
    (storeEntry ctx base v h).2.accepted = base.accepted ++ [v] ∧
      (storeEntry ctx base v h).2.retainedFloors = base.retainedFloors ∧
      (storeEntry ctx base v h).2.chainTips = (base.raiseTip v).chainTips ∧
      (storeEntry ctx base v h).2.gapped = base.gapped ∧
      (storeEntry ctx base v h).2.elsewhere = base.elsewhere :=
  ⟨insertEntry_accepted _ _, insertEntry_retainedFloors _ _, insertEntry_chainTips _ _,
    insertEntry_gapped _ _, insertEntry_elsewhere _ _⟩

theorem Accepts.step {r : AcceptOutcome × ChainLog} (h : Accepts ctx log v advertised r) :
    AcceptStep ctx log v advertised r.1 r.2 := by
  have hdrop : ∀ g ∈ (log.dropGapped v.entryHash).gapped,
      g ∈ log.gapped ∧ g.entryHash ≠ v.entryHash := fun g hg =>
    ⟨mem_of_mem_filter hg, of_decide_eq_true (mem_filter.mp hg).2⟩
  have htips : ((log.dropGapped v.entryHash).raiseTip v).chainTips = (log.raiseTip v).chainTips :=
    raiseTip_chainTips_congr (show (log.dropGapped v.entryHash).chainTips = log.chainTips from rfl) v
  cases h with
  | known _ hr | below _ hr | outsider _ hr | again _ _ hr =>
    subst hr
    exact .held rfl rfl rfl rfl (fun _ hg => .inl hg) rfl
  | adopts hv hadv hadopt hr =>
    subst hr
    rw [recordAdoptedFloor_dropGapped]
    obtain ⟨ha, hf, ht, hg, he⟩ := storeEntry_eq ctx _ v hv.lt
    refine .adopted hv.lt rfl hadv hadopt ha hf ?_ (fun g hmem => ?_) he (fun g hmem hdev => ?_)
    · refine ht.trans (raiseTip_chainTips_congr ?_ v)
      rfl
    · rw [hg] at hmem
      exact hdrop g (mem_of_mem_filter hmem)
    · rw [hg] at hmem
      have hkept := of_decide_eq_true (mem_filter.mp hmem).2
      exact not_lt.mp fun hlt => hkept ⟨hdev, hlt⟩
  | stores hv hno hext hr =>
    subst hr
    obtain ⟨ha, hf, ht, hg, he⟩ := storeEntry_eq ctx (log.dropGapped v.entryHash) v hv.lt
    exact .stored hv.lt rfl hno hext ha hf (ht.trans htips) (hg ▸ hdrop) he
  | holds hv hfit o ho hr =>
    obtain ⟨held, hlog, hheld⟩ := retainGappedEntry_held (log.dropGapped v.entryHash) v
    rw [hlog] at hr
    subst hr
    exact .held ho rfl rfl rfl
      (fun g hg => (hheld g hg).symm.imp (fun h => (hdrop g h).1) fun heq => ⟨heq, hfit⟩) rfl
  | forks _ _ hr =>
    subst hr
    exact .held rfl rfl rfl rfl (fun g hg => .inl (hdrop g hg).1) rfl

theorem acceptRowEntry_step (h : acceptRowEntry ctx log v advertised = .ok (o, log')) :
    AcceptStep ctx log v advertised o log' :=
  (acceptRowEntry_accepts h).2.step

theorem AcceptStep.of_dropGapped (h : AcceptStep ctx (log.dropGapped hash) v advertised o log') :
    AcceptStep ctx log v advertised o log' := by
  have hsub : (log.dropGapped hash).gapped ⊆ log.gapped := filter_sublist.subset
  have hsame : (log.dropGapped hash).chainTips = log.chainTips := rfl
  have htips : ((log.dropGapped hash).raiseTip v).chainTips = (log.raiseTip v).chainTips :=
    raiseTip_chainTips_congr hsame v
  cases h with
  | held ho ha hf ht hg he =>
    exact .held ho ha hf ht (fun g hmem => (hg g hmem).imp_left fun h => hsub h) he
  | stored hlt ho hno hext ha hf ht hg he =>
    refine .stored hlt ho hno ?_ ha hf (ht.trans htips)
      (fun g hmem => (hg g hmem).imp_left fun h => hsub h) he
    cases hext with
    | genesis ht hw hp => exact .genesis ht hw hp
    | next t ht hp hlt => exact .next t ht hp hlt
    | restore ht hw => exact .restore ht hw
    | past w ht hw hp hlt => exact .past w ht hw hp hlt
  | adopted hlt ho hadv hadopt ha hf ht hg he hswept =>
    have hfloors := congrArg retainedFloors (recordAdoptedFloor_dropGapped log hash v.device v.cursor)
    exact .adopted hlt ho hadv hadopt ha (hf.trans hfloors) (ht.trans htips)
      (fun g hmem => (hg g hmem).imp_left fun h => hsub h) he hswept

theorem AcceptStep.chainStep (h : AcceptStep ctx log v advertised o log') : ChainStep log log' := by
  cases h with
  | held _ ha hf ht => exact .kept ha hf ht
  | stored _ _ _ hext ha hf ht => exact .stored v hext ha hf ht
  | adopted _ _ _ hadopt ha hf ht => exact .adopted v hadopt ha hf ht

theorem AcceptStep.elsewhere (h : AcceptStep ctx log v advertised o log') :
    log'.elsewhere = log.elsewhere := by
  cases h <;> assumption

theorem AcceptStep.accepted (h : AcceptStep ctx log v advertised o log') :
    log'.accepted = log.accepted ++ if o.stores then [v] else [] := by
  cases h with
  | held ho ha =>
    rw [ha, ho]
    exact (append_nil _).symm
  | stored _ ho _ _ ha | adopted _ ho _ _ ha =>
    rw [ha, ho, storedOutcome_stores]
    rfl

theorem mem_of_chainWitness (h : log.chainWitness device = some w) : (device, w) ∈ log.chainTips := by
  obtain ⟨l₁, l₂, hl, -⟩ := lookup_eq_some_iff.mp h
  rw [hl]
  exact mem_append_right _ mem_cons_self

theorem witness_lt_nextStreamLamport (h : log.chainWitness device = some w) :
    w.lamport < log.nextStreamLamport :=
  lt_next_of_mem (mem_append_right _ (mem_map_of_mem (mem_of_chainWitness h)))

theorem authorRowEntry_extends (hs : ∀ d, Sound log d) {stream : StreamId} {op : RowOp}
    {addressable : ∀ pk ∈ op.pks, PkAddressable pk} {e : RowEntry}
    (h : authorRowEntry stream log device hash op addressable = .ok (e, log')) :
    ∃ v : VerifiedEntry, v = ⟨hash, stream, device, log.nextStreamLamport,
        (log.chainWitness device).map (·.entryHash), .known op addressable⟩ ∧
      e.op = op ∧ e.clock = ⟨v.lamport, v.device⟩ ∧ v.lamport < maxEntryLamport ∧ Extends log v ∧
      log'.accepted = log.accepted ++ [v] ∧ log'.retainedFloors = log.retainedFloors ∧
      log'.chainTips = (log.raiseTip v).chainTips ∧ log'.gapped = log.gapped ∧
      log'.elsewhere = log.elsewhere := by
  obtain ⟨hcont, hlt, rfl, rfl⟩ := authorRowEntry_ok h
  have htail : log.chainTail device = log.chainWitness device := by
    cases ht : log.chainTail device with
    | none =>
      cases hw : log.chainWitness device with
      | none => rfl
      | some w =>
        have := hcont (by rw [hw]; rfl)
        rwa [ht, hw] at this
    | some t => exact ((hs device).tail t ht).symm
  refine ⟨_, rfl, rfl, rfl, hlt, ?_, ?_, insertEntry_retainedFloors _ _, ?_,
    insertEntry_gapped _ _, insertEntry_elsewhere _ _⟩
  · cases hw : log.chainWitness device with
    | none => exact .genesis (htail.trans hw) hw rfl
    | some w => exact .next w (htail.trans hw) rfl (witness_lt_nextStreamLamport hw)
  · rw [insertEntry_accepted, htail]
  · rw [insertEntry_chainTips, htail]

theorem compactChainPrefix_chainStep {floor : Nat} {report : CompactionReport}
    (h : compactChainPrefix sc σ device floor = .ok (report, σ')) :
    ChainStep σ.log σ'.log ∧ σ'.tables = σ.tables ∧
      σ'.log.accepted.Sublist σ.log.accepted ∧ σ'.log.gapped ⊆ σ.log.gapped ∧
      σ'.log.chainTips = σ.log.chainTips ∧ σ'.log.elsewhere = σ.log.elsewhere ∧
      ∀ e ∈ σ.log.accepted, ∃ z ∈ σ'.log.accepted, z.device = e.device := by
  obtain ⟨floorEntry, hmem, hdev, rfl, habove, -, rfl⟩ := compactChainPrefix_ok h
  have hsub : (σ.log.dropPrefix device floorEntry.lamport).accepted.Sublist σ.log.accepted :=
    filter_sublist.map _
  -- what is not below the floor on its chain stays
  have hstays : ∀ s ∈ σ.log.entries, ¬ (s.device = device ∧ s.lamport < floorEntry.lamport) →
      s.toVerifiedEntry ∈ (σ.log.dropPrefix device floorEntry.lamport).accepted :=
    fun s hs hnot => mem_map_of_mem (mem_filter.mpr
      ⟨hs, decide_eq_true fun hlow => hnot ⟨hlow.1, hlow.2.1⟩⟩)
  refine ⟨.compacted device floorEntry.toVerifiedEntry ?_ habove hsub ?_ rfl rfl, rfl, hsub,
    filter_sublist.subset, rfl, rfl, fun e he => ?_⟩
  · exact mem_filter.mpr ⟨mem_map_of_mem hmem, decide_eq_true hdev⟩
  · intro p hp
    simp only [accepted, sweepGapped, dropPrefix, filter_map, filter_filter]
    congr 1
    refine filter_congr fun e he => ?_
    have hpe := hp e.toVerifiedEntry (mem_map_of_mem he)
    cases hq : p e.toVerifiedEntry with
    | false => simp [hq]
    | true =>
      have := hpe hq
      simp only [comp_apply, hq, Bool.true_and, decide_eq_true_eq]
      tauto
  · obtain ⟨s, hs, rfl⟩ := mem_map.mp he
    by_cases hd : s.device = device
    · exact ⟨_, hstays floorEntry hmem (fun hlow => lt_irrefl _ hlow.2), hdev.trans hd.symm⟩
    · exact ⟨_, hstays s hs fun hlow => hd hlow.1, rfl⟩

end Operations

/-! ## 4. The shape is kept -/

theorem chainOf_congr (ha : log'.accepted = log.accepted) (d : DeviceFingerprint) :
    log'.chainOf d = log.chainOf d := by
  unfold chainOf
  rw [ha]

theorem chainWitness_congr (ht : log'.chainTips = log.chainTips) (d : DeviceFingerprint) :
    log'.chainWitness d = log.chainWitness d := by
  unfold chainWitness
  rw [ht]

theorem chainOf_append (ha : log'.accepted = log.accepted ++ new) :
    log'.chainOf d = log.chainOf d ++ new.filter fun e => e.device = d := by
  unfold chainOf
  rw [ha, filter_append]

theorem chainOf_store_self (ha : log'.accepted = log.accepted ++ [v]) :
    log'.chainOf v.device = log.chainOf v.device ++ [v] := by
  rw [chainOf_append ha, filter_cons_of_pos (by simp), filter_nil]

theorem chainOf_store_ne (ha : log'.accepted = log.accepted ++ [v]) (hne : v.device ≠ d) :
    log'.chainOf d = log.chainOf d := by
  rw [chainOf_append ha, filter_cons_of_neg (by simpa using hne), filter_nil, append_nil]

theorem lookup_map_at {l : List (DeviceFingerprint × ChainCursor)} (d : DeviceFingerprint) :
    (l.map fun dt => if dt.1 = device then (dt.1, c) else dt).lookup d =
      if d = device then (l.lookup d).map fun _ => c else l.lookup d := by
  induction l with
  | nil => simp
  | cons dt l ih =>
    obtain ⟨d', t⟩ := dt
    by_cases hd : d = d'
    · subst hd
      by_cases hdev : d = device
      · simp [hdev]
      · simp [hdev]
    · have hne : (d == d') = false := beq_false_of_ne hd
      by_cases hdev : d' = device
      · simp only [map_cons, hdev, if_true, lookup_cons]
        rw [hdev] at hne
        simp only [hne, ih]
      · simp only [map_cons, hdev, if_false, lookup_cons, hne, ih]

theorem chainWitness_raise_ne (ht : log'.chainTips = (log.raiseTip v).chainTips)
    (hne : v.device ≠ d) : log'.chainWitness d = log.chainWitness d := by
  unfold chainWitness
  rw [ht]
  unfold raiseTip
  split
  · split
    · simp only [lookup_map_at, if_neg (Ne.symm hne)]
    · rfl
  · simp only [lookup_append]
    have hdec : (d == v.device) = false := beq_false_of_ne (Ne.symm hne)
    simp [lookup_cons, hdec]

theorem chainWitness_raise_self (ht : log'.chainTips = (log.raiseTip v).chainTips)
    (hw : ∀ w, log.chainWitness v.device = some w → w = v.cursor ∨ w.lamport < v.lamport) :
    log'.chainWitness v.device = some v.cursor := by
  unfold chainWitness
  rw [ht]
  unfold raiseTip
  split
  · rename_i w hwit
    have hraise : w.lamport < v.lamport ∨ (w.lamport = v.lamport ∧ w.entryHash = v.entryHash) := by
      rcases hw w hwit with rfl | hlt
      · exact .inr ⟨rfl, rfl⟩
      · exact .inl hlt
    rw [if_pos hraise]
    simp only [lookup_map_at, if_true]
    unfold chainWitness at hwit
    simp [hwit]
  · rename_i hwit
    unfold chainWitness at hwit
    simp [lookup_append, hwit]

theorem tail_of_store (ha : log'.accepted = log.accepted ++ [v])
    (hrise : Rises (·.lamport) (log'.chainOf v.device)) :
    log'.chainTail v.device = some v.cursor := by
  rw [chainTail_eq hrise, chainOf_store_self ha, getLast?_append]
  rfl

/-- Above everything stored on its chain and above its witness, unless it is the witness. -/
structure Tops (log : ChainLog) (v : VerifiedEntry) : Prop where
  stored : ∀ e ∈ log.chainOf v.device, e.lamport < v.lamport
  witness : ∀ w, log.chainWitness v.device = some w → w = v.cursor ∨ w.lamport < v.lamport

theorem Tops.store (h : Tops log v) (hrise : Rises (·.lamport) (log.chainOf v.device))
    (ha : log'.accepted = log.accepted ++ [v]) (ht : log'.chainTips = (log.raiseTip v).chainTips) :
    Rises (·.lamport) (log'.chainOf v.device) ∧
      ∀ t, log'.chainTail v.device = some t → log'.chainWitness v.device = some t := by
  have hrise' : Rises (·.lamport) (log'.chainOf v.device) := by
    rw [chainOf_store_self ha]
    exact rises_append_singleton.mpr ⟨hrise, h.stored⟩
  refine ⟨hrise', fun t htail => ?_⟩
  rw [tail_of_store ha hrise'] at htail
  rw [← htail]
  exact chainWitness_raise_self ht h.witness

theorem tops_of_extends (h : Sound log v.device) (hext : Extends log v) : Tops log v := by
  refine ⟨fun e he => ?_, fun w hw => ?_⟩
  · cases hext with
    | next t htail _ hlt => exact (h.lamport_le_tail htail he).trans_lt hlt
    | genesis htail | restore htail | past _ htail =>
      rw [h.chainOf_eq_nil htail] at he
      cases he
  · cases hext with
    | genesis _ hnone =>
      rw [hnone] at hw
      cases hw
    | next t htail _ hlt =>
      rw [h.tail t htail] at hw
      cases hw
      exact .inr hlt
    | restore _ hsome =>
      rw [hsome] at hw
      cases hw
      exact .inl rfl
    | past w' _ hsome _ hlt =>
      rw [hsome] at hw
      cases hw
      exact .inr hlt

theorem Sound.stored (h : Sound log v.device) (hext : Extends log v)
    (ha : log'.accepted = log.accepted ++ [v]) (hf : log'.retainedFloors = log.retainedFloors)
    (ht : log'.chainTips = (log.raiseTip v).chainTips) : Sound log' v.device := by
  have hchain := chainOf_store_self ha
  have htops := tops_of_extends h hext
  obtain ⟨hrise, htail⟩ := htops.store h.rises ha ht
  have hbelow : log'.belowFloor v.device v.lamport = false := by
    rw [belowFloor_eq (congrFun hf _)]
    cases hfl : log.retainedFloors v.device with
    | none => exact belowFloor_of_none hfl _
    | some f =>
      obtain ⟨e, he, rfl⟩ := h.floor f hfl
      rw [belowFloor_of_some hfl]
      exact decide_eq_false (htops.stored e he).not_gt
  have hpath : log'.pathOf v.device = log.pathOf v.device ++ [v] := by
    unfold pathOf
    rw [hchain, filter_append, filter_cons_of_pos (by rw [hbelow]; rfl), filter_nil]
    congr 1
    exact filter_congr fun e _ => by rw [belowFloor_eq (congrFun hf _)]
  refine ⟨hrise, ?_, ?_, htail⟩
  · -- the last entry of the path is the tail, which the new entry names
    rw [hpath, isChain_append]
    refine ⟨h.linked, singleton v, ?_⟩
    intro a hlast b hb
    obtain rfl : v = b := by simpa using hb
    have hne : log.pathOf v.device ≠ [] := by
      intro hnil
      rw [hnil] at hlast
      cases hlast
    have hlast' : (log.chainOf v.device).getLast? = some a := by
      rw [← getLast?_of_suffix (pathOf_suffix h.rises) hne]
      exact hlast
    have htail : log.chainTail v.device = some a.cursor := by
      rw [chainTail_eq h.rises, hlast']
      rfl
    cases hext with
    | next t ht' hp _ =>
      rw [ht'] at htail
      cases htail
      exact hp
    | genesis ht' | restore ht' | past _ ht' =>
      rw [ht'] at htail
      cases htail
  · intro f hfl
    rw [congrFun hf] at hfl
    obtain ⟨e, he, hcur⟩ := h.floor f hfl
    rw [hchain]
    exact ⟨e, mem_append_left _ he, hcur⟩

section

variable (h : Sound log v.device) (hadopt : adoptable log v.device v.cursor = true)

include h hadopt

theorem tops_of_adoptable : Tops log v := by
  unfold adoptable at hadopt
  split at hadopt
  · rename_i t htail
    have hlt : t.lamport < v.lamport := of_decide_eq_true hadopt
    refine ⟨fun e he => (h.lamport_le_tail htail he).trans_lt hlt, fun w hw => ?_⟩
    rw [h.tail t htail] at hw
    cases hw
    exact .inr hlt
  · rename_i w htail hwit
    refine ⟨fun e he => ?_, fun w' hw' => ?_⟩
    · rw [h.chainOf_eq_nil htail] at he
      cases he
    · rw [hwit] at hw'
      cases hw'
      rcases of_decide_eq_true hadopt with heq | hlt
      · exact .inl heq.symm
      · exact .inr hlt
  · rename_i htail hwit
    refine ⟨fun e he => ?_, fun w' hw' => ?_⟩
    · rw [h.chainOf_eq_nil htail] at he
      cases he
    · rw [hwit] at hw'
      cases hw'

theorem floor_lt_of_adoptable (f : ChainCursor) (hf : log.retainedFloors v.device = some f) :
    f.lamport < v.cursor.lamport := by
  obtain ⟨e, he, rfl⟩ := h.floor f hf
  exact (tops_of_adoptable h hadopt).stored e he

theorem floors_of_adoptable : (log.recordFloor v.device v.cursor).retainedFloors =
    update log.retainedFloors v.device (some v.cursor) :=
  congrArg retainedFloors (recordFloor_of_lt log (floor_lt_of_adoptable h hadopt))

theorem pathOf_adopted (ha : log'.accepted = log.accepted ++ v :: new)
    (hf : log'.retainedFloors = (log.recordFloor v.device v.cursor).retainedFloors) :
    log'.retainedFloors v.device = some v.cursor ∧ log'.pathOf v.device =
      v :: (new.filter fun e => e.device = v.device).filter
        fun e => !log'.belowFloor v.device e.lamport := by
  have hfloor : log'.retainedFloors v.device = some v.cursor := by
    rw [hf, floors_of_adoptable h hadopt, update_self]
  refine ⟨hfloor, ?_⟩
  unfold pathOf
  have hold : (log.chainOf v.device).filter (fun e => !log'.belowFloor v.device e.lamport) = [] := by
    refine filter_eq_nil_iff.mpr fun e he => ?_
    have hlt : e.lamport < v.cursor.lamport := (tops_of_adoptable h hadopt).stored e he
    simp [belowFloor_of_some hfloor, hlt]
  rw [chainOf_append ha, filter_cons_of_pos (by simp), filter_append, hold,
    nil_append,
    filter_cons_of_pos (by rw [belowFloor_of_some hfloor]; simp [VerifiedEntry.cursor])]

theorem Sound.adopted (ha : log'.accepted = log.accepted ++ [v])
    (hf : log'.retainedFloors = (log.recordFloor v.device v.cursor).retainedFloors)
    (ht : log'.chainTips = (log.raiseTip v).chainTips) : Sound log' v.device := by
  obtain ⟨hrise, htail⟩ := (tops_of_adoptable h hadopt).store h.rises ha ht
  obtain ⟨hfloor, hpath⟩ := pathOf_adopted h hadopt ha hf
  refine ⟨hrise, ?_, ?_, htail⟩
  · rw [hpath]
    exact singleton v
  · intro f hfl
    rw [hfloor] at hfl
    cases hfl
    rw [chainOf_store_self ha]
    exact ⟨v, mem_append_right _ mem_cons_self, rfl⟩

end

theorem Sound.compacted (h : Sound log d) (hmem : floor ∈ log.chainOf d)
    (habove : ∀ f, log.retainedFloors d = some f → f.lamport < floor.lamport)
    (hsub : log'.accepted.Sublist log.accepted) (hkeep : ∀ p : VerifiedEntry → Bool,
      (∀ e ∈ log.accepted, p e = true → ¬ (e.device = d ∧ e.lamport < floor.lamport)) →
      log'.accepted.filter p = log.accepted.filter p)
    (hf : log'.retainedFloors = update log.retainedFloors d (some floor.cursor))
    (ht : log'.chainTips = log.chainTips) : Sound log' d := by
  have hrise : Rises (·.lamport) (log'.chainOf d) := h.rises.sublist (hsub.filter _)
  have hfloor : log'.retainedFloors d = some floor.cursor := by rw [hf, update_self]
  -- the part from the floor on is the same in both logs
  have hupper : (log'.chainOf d).filter (fun e => floor.lamport ≤ e.lamport) =
      (log.chainOf d).filter fun e => floor.lamport ≤ e.lamport := by
    unfold chainOf
    rw [filter_filter, filter_filter]
    refine hkeep _ fun e _ hp => ?_
    simp only [Bool.and_eq_true, decide_eq_true_eq] at hp
    omega
  have hne : (log.chainOf d).filter (fun e => floor.lamport ≤ e.lamport) ≠ [] :=
    ne_nil_of_mem (mem_filter.mpr ⟨hmem, decide_eq_true le_rfl⟩)
  have hpath : log'.pathOf d = (log.chainOf d).filter fun e => floor.lamport ≤ e.lamport := by
    rw [← hupper]
    unfold pathOf
    refine filter_congr fun e _ => ?_
    rw [belowFloor_of_some hfloor, ← decide_not, decide_eq_decide, not_lt]
    rfl
  have hinner : (log.chainOf d).filter (fun e => floor.lamport ≤ e.lamport) =
      (log.pathOf d).filter fun e => floor.lamport ≤ e.lamport := by
    unfold pathOf
    rw [filter_filter]
    refine filter_congr fun e _ => ?_
    cases hfl : log.retainedFloors d with
    | none => simp [belowFloor_of_none hfl]
    | some f =>
      have hlt := habove f hfl
      rw [belowFloor_of_some hfl, ← decide_not, ← Bool.decide_and, decide_eq_decide]
      omega
  refine ⟨hrise, ?_, ?_, ?_⟩
  · rw [hpath, hinner]
    exact h.linked.suffix ((h.rises.sublist (pathOf_suffix h.rises).sublist).filter_suffix _)
  · intro f hfl
    rw [hfloor] at hfl
    cases hfl
    have hmem' : floor ∈ (log'.chainOf d).filter fun e => floor.lamport ≤ e.lamport := by
      rw [hupper]
      exact mem_filter.mpr ⟨hmem, decide_eq_true le_rfl⟩
    exact ⟨floor, mem_of_mem_filter hmem', rfl⟩
  · intro t htail
    have hlast : (log'.chainOf d).getLast? = (log.chainOf d).getLast? := by
      rw [← getLast?_of_suffix (h.rises.filter_suffix floor.lamport) hne, ← hupper]
      exact (getLast?_of_suffix (hrise.filter_suffix floor.lamport) (hupper ▸ hne)).symm
    rw [chainTail_eq hrise, hlast, ← chainTail_eq h.rises] at htail
    exact (chainWitness_congr ht d).trans (h.tail t htail)

theorem ChainStep.sound (hs : ∀ d, Sound log d) (h : ChainStep log log') (d : DeviceFingerprint) :
    Sound log' d := by
  cases h with
  | kept ha hf ht =>
    exact (hs d).congr (chainOf_congr ha d) (congrFun hf d) (chainWitness_congr ht d)
  | stored v hext ha hf ht =>
    by_cases hne : v.device = d
    · exact hne ▸ (hs v.device).stored hext ha hf ht
    · exact (hs d).congr (chainOf_store_ne ha hne) (congrFun hf d) (chainWitness_raise_ne ht hne)
  | adopted v hadopt ha hf ht =>
    by_cases hne : v.device = d
    · exact hne ▸ (hs v.device).adopted hadopt ha hf ht
    · refine (hs d).congr (chainOf_store_ne ha hne) ?_ (chainWitness_raise_ne ht hne)
      rw [hf, floors_of_adoptable (hs v.device) hadopt, update_of_ne (Ne.symm hne)]
  | compacted device floor hmem habove hsub hkeep hf ht =>
    by_cases hne : device = d
    · subst hne
      exact (hs device).compacted hmem habove hsub hkeep hf ht
    · refine (hs d).congr (hkeep _ fun e _ hp => ?_) ?_ (chainWitness_congr ht d)
      · rintro ⟨rfl, -⟩
        exact hne (of_decide_eq_true hp)
      · rw [hf, update_of_ne (Ne.symm hne)]
  | purged ha hf ht =>
    have hnil : log'.chainOf d = [] := by
      unfold chainOf
      rw [ha]
      rfl
    refine ⟨hnil ▸ List.Pairwise.nil, ?_, fun f hfl => ?_, fun t htail => ?_⟩
    · unfold pathOf
      rw [hnil]
      exact nil
    · rw [hf] at hfl
      cases hfl
    · rw [chainTail_eq_foldl, hnil] at htail
      cases htail

theorem ChainStep.witness (hs : ∀ d, Sound log d) (h : ChainStep log log') (d : DeviceFingerprint) :
    log'.chainWitness d = log.chainWitness d ∨ ∃ v ∈ log'.accepted,
      log'.chainWitness d = some v.cursor ∧
        ∀ w, log.chainWitness d = some w → w = v.cursor ∨ w.lamport < v.lamport := by
  have hcases : log'.chainTips = log.chainTips ∨ ∃ v, Tops log v ∧
      log'.accepted = log.accepted ++ [v] ∧ log'.chainTips = (log.raiseTip v).chainTips := by
    cases h with
    | kept _ _ ht | compacted _ _ _ _ _ _ _ ht | purged _ _ ht => exact .inl ht
    | stored v hext ha _ ht => exact .inr ⟨v, tops_of_extends (hs v.device) hext, ha, ht⟩
    | adopted v hadopt ha _ ht => exact .inr ⟨v, tops_of_adoptable (hs v.device) hadopt, ha, ht⟩
  rcases hcases with ht | ⟨v, hv, ha, ht⟩
  · exact .inl (chainWitness_congr ht d)
  by_cases hne : v.device = d
  · subst hne
    exact .inr ⟨v, ha ▸ mem_append_right _ mem_cons_self, chainWitness_raise_self ht hv.witness,
      hv.witness⟩
  · exact .inl (chainWitness_raise_ne ht hne)

theorem ChainStep.witness_le (hs : ∀ d, Sound log d) (h : ChainStep log log')
    (hw : log.chainWitness d = some w) :
    ∃ w', log'.chainWitness d = some w' ∧ (w = w' ∨ w.lamport < w'.lamport) := by
  rcases h.witness hs d with hsame | ⟨v, -, hv, habove⟩
  · exact ⟨w, hsame.trans hw, .inl rfl⟩
  · exact ⟨v.cursor, hv, habove w hw⟩

theorem sound_empty (elsewhere : EntryHash → Bool) (d : DeviceFingerprint) :
    Sound { empty with elsewhere := elsewhere } d :=
  ⟨List.Pairwise.nil, nil, nofun, nofun⟩

/-! ## 5. An ingested entry -/

section

variable {ctx : AcceptCtx}

/-- The same chains and the same held entries: the projection marks may differ. -/
structure SameChains (log log' : ChainLog) : Prop where
  accepted : log'.accepted = log.accepted
  floors : log'.retainedFloors = log.retainedFloors
  tips : log'.chainTips = log.chainTips
  gapped : log'.gapped = log.gapped
  elsewhere : log'.elsewhere = log.elsewhere

theorem SameChains.refl (log : ChainLog) : SameChains log log := ⟨rfl, rfl, rfl, rfl, rfl⟩

theorem SameChains.chainStep (h : SameChains log log') : ChainStep log log' :=
  .kept h.accepted h.floors h.tips

theorem AcceptStep.trans_same (h : AcceptStep ctx log v advertised o log₁)
    (hs : SameChains log₁ log₂) : AcceptStep ctx log v advertised o log₂ := by
  obtain ⟨hacc, hfloors, htips, hgapped, hels⟩ := hs
  cases h with
  | held ho ha hf ht hg he =>
    exact .held ho (hacc.trans ha) (hfloors.trans hf) (htips.trans ht) (hgapped ▸ hg) (hels.trans he)
  | stored hlt ho hno hext ha hf ht hg he =>
    exact .stored hlt ho hno hext (hacc.trans ha) (hfloors.trans hf) (htips.trans ht) (hgapped ▸ hg)
      (hels.trans he)
  | adopted hlt ho hadv hadopt ha hf ht hg he hswept =>
    exact .adopted hlt ho hadv hadopt (hacc.trans ha) (hfloors.trans hf) (htips.trans ht)
      (hgapped ▸ hg) (hels.trans he) (hgapped ▸ hswept)

theorem sameChains_setPending (log : ChainLog) (hash : EntryHash) (pending : Option PendingReason) :
    SameChains log (log.setPending hash pending) := by
  refine ⟨?_, rfl, rfl, rfl, rfl⟩
  simp only [accepted, setPending, map_map]
  refine map_congr_left fun e _ => ?_
  simp only [comp_apply]
  split <;> rfl

/-- The tables as they were, or after one entry at the identity `m` was folded into its table. -/
inductive FoldsOne (sc : Scope) (m : EntryMeta) (tables : String → Store) :
    (String → Store) → Prop where
  | kept : FoldsOne sc m tables tables
  | entry {t : Table} (e : RowEntry) (ht : sc.table? e.op.table = some t) (hm : e.opMeta = m) :
      FoldsOne sc m tables (update tables e.op.table
        (applyEntry sc.sha256 t.spec t.schema sc.repoId (tables e.op.table) e).2)

theorem settleGuarded_folds {t : Table} {e : RowEntry} (ht : sc.table? e.op.table = some t)
    (doubt : RowDoubt) : FoldsOne sc e.opMeta σ.tables (settleGuarded sc t σ doubt e).2 := by
  unfold settleGuarded
  simp only
  split
  · split
    · rename_i now hnow
      obtain ⟨htable, hpks, -⟩ := settleable_part hnow
      have hfold : FoldsOne sc e.opMeta σ.tables (update σ.tables now.table
          (applyEntry sc.sha256 t.spec t.schema sc.repoId (σ.tables now.table)
            ⟨now, e.opMeta, fun p hp => e.addressable p (hpks p hp)⟩).2) :=
        .entry ⟨now, e.opMeta, fun p hp => e.addressable p (hpks p hp)⟩ (htable ▸ ht) rfl
      rw [htable] at hfold
      exact hfold
    · exact .kept
  · exact .entry e ht rfl

theorem recordSettled_sameChains (log : ChainLog) (hash : EntryHash)
    (r : (PendingReason ⊕ ApplyOutcome) × (String → Store)) :
    SameChains log (recordSettled log hash r).2.log := by
  obtain ⟨r, tables⟩ := r
  rcases r with reason | outcome
  · exact sameChains_setPending log hash _
  · cases outcome with
    | applied | superseded => exact .refl log
    | quarantined | unprojectable => exact sameChains_setPending log hash _

theorem replayPendingEntry_folds (sc : Scope) (status : StreamStatus) (everWriter : Bool) (σ : Replica)
    (p : StoredEntry) : ∃ pending tables, ∃ m : EntryMeta,
      replayPendingEntry sc status everWriter σ p = ⟨σ.log.setPending p.entryHash pending, tables⟩ ∧
        m.clock = ⟨p.lamport, p.device⟩ ∧ FoldsOne sc m σ.tables tables := by
  obtain ⟨pending, tables, hr, rfl | ⟨t, e, ht, hmeta, rfl⟩⟩ :=
    replayPendingEntry_cases sc status everWriter σ p
  · exact ⟨pending, _, ⟨⟨p.lamport, p.device⟩, p.lamport_lt⟩, hr, rfl, .kept⟩
  · exact ⟨pending, _, e.opMeta, hr, by rw [hmeta]; rfl, settleGuarded_folds ht _⟩

/-- **What ingesting one entry does**: the accept's step, and on the tables at most its fold. -/
structure IngestsOne (ctx : SyncCtx) (σ : Replica) (v : VerifiedEntry)
    (advertised : Option ChainCursor) (accepted : Option AcceptedEntry) (σ' : Replica) : Prop where
  step : ∃ o, AcceptStep ctx.acceptCtx σ.log v advertised o σ'.log ∧
    accepted = if o.stores then some ⟨v.entryHash, v.prevHash⟩ else none
  tables : σ'.tables = σ.tables ∨
    accepted.isSome ∧ ∃ m : EntryMeta, m.clock = ⟨v.lamport, v.device⟩ ∧
      FoldsOne ctx.scope m σ.tables σ'.tables

theorem IngestsOne.of_dropGapped {ctx : SyncCtx} {accepted : Option AcceptedEntry}
    (h : IngestsOne ctx { σ with log := σ.log.dropGapped hash } v advertised accepted σ') :
    IngestsOne ctx σ v advertised accepted σ' := by
  obtain ⟨o, hstep, hacc⟩ := h.step
  exact ⟨⟨o, hstep.of_dropGapped, hacc⟩, h.tables⟩

theorem storedOutcome_cases (ctx : AcceptCtx) (v : VerifiedEntry) (hlt : v.lamport < maxEntryLamport) :
    (∃ e : RowEntry, (storedOutcome ctx v hlt).1 = .stored e v.entryHash v.prevHash ∧
      e.opMeta.clock = ⟨v.lamport, v.device⟩) ∨
    ∃ reason, (storedOutcome ctx v hlt).1 = .storedInert reason v.entryHash v.prevHash := by
  unfold storedOutcome
  split
  · exact .inr ⟨_, rfl⟩
  · exact .inr ⟨_, rfl⟩
  · split
    · exact .inl ⟨_, rfl, rfl⟩
    · exact .inr ⟨_, rfl⟩

theorem AcceptStep.outcome (h : AcceptStep ctx log v advertised o log') (ho : o.stores = true) :
    ∃ hlt, o = (storedOutcome ctx v hlt).1 := by
  cases h with
  | held hno =>
    rw [hno] at ho
    cases ho
  | stored hlt heq | adopted hlt heq => exact ⟨hlt, heq⟩

theorem ingestOne_of_accept {ctx : SyncCtx}
    (h : acceptRowEntry ctx.acceptCtx σ.log v advertised = .ok (o, log)) :
    ∃ outcome σ', ingestOne ctx σ v advertised =
        .ok (outcome, (if o.stores then some ⟨v.entryHash, v.prevHash⟩ else none), σ') ∧
      SameChains log σ'.log ∧ (σ'.tables = σ.tables ∨ o.stores = true ∧
        ∃ m : EntryMeta, m.clock = ⟨v.lamport, v.device⟩ ∧
          FoldsOne ctx.scope m σ.tables σ'.tables) := by
  cases ho : o.stores with
  | true =>
    obtain ⟨hlt, rfl⟩ := (acceptRowEntry_step h).outcome ho
    rcases storedOutcome_cases ctx.acceptCtx v hlt with ⟨e, he, hclock⟩ | ⟨reason, he⟩
    · rw [he] at h
      simp only [ingestOne, h]
      split
      · exact ⟨_, _, rfl, .refl log, .inl rfl⟩
      · rename_i t ht
        refine ⟨_, _, rfl, recordSettled_sameChains log _ _, .inr ⟨trivial, e.opMeta, hclock, ?_⟩⟩
        rw [recordSettled_tables]
        exact settleGuarded_folds (σ := { σ with log := log }) ht _
    · rw [he] at h
      simp only [ingestOne, h]
      exact ⟨_, _, rfl, .refl log, .inl rfl⟩
  | false =>
    cases o with
    | stored | storedInert => cases ho
    | _ =>
      simp only [ingestOne, h]
      exact ⟨_, _, rfl, .refl log, .inl rfl⟩

section

variable {ctx : SyncCtx} {outcome : IngestOutcome} {accepted : Option AcceptedEntry}
  (h : ingestOne ctx σ v advertised = .ok (outcome, accepted, σ'))

include h

theorem accept_of_ingestOne :
    ∃ o log, acceptRowEntry ctx.acceptCtx σ.log v advertised = .ok (o, log) ∧
      AcceptStep ctx.acceptCtx σ.log v advertised o σ'.log ∧
      accepted = (if o.stores then some ⟨v.entryHash, v.prevHash⟩ else none) ∧
      (σ'.tables = σ.tables ∨ o.stores = true ∧ ∃ m : EntryMeta, m.clock = ⟨v.lamport, v.device⟩ ∧
        FoldsOne ctx.scope m σ.tables σ'.tables) := by
  cases hacc : acceptRowEntry ctx.acceptCtx σ.log v advertised with
  | error why =>
    unfold ingestOne at h
    rw [hacc] at h
    cases h
  | ok r =>
    obtain ⟨outcome', σ₁, hone, hsame, htables⟩ := ingestOne_of_accept hacc
    rw [hone] at h
    cases h
    exact ⟨r.1, r.2, rfl, (acceptRowEntry_step hacc).trans_same hsame, rfl, htables⟩

theorem ingestOne_ingestsOne : IngestsOne ctx σ v advertised accepted σ' := by
  obtain ⟨o, log, -, hstep, rfl, htables⟩ := accept_of_ingestOne h
  refine ⟨⟨o, hstep, rfl⟩, htables.imp_right fun ⟨ho, hm⟩ => ⟨?_, hm⟩⟩
  rw [if_pos ho]
  rfl

end

end

end RagRat.TableSync
