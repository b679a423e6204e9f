/-
  File:      RagRat/TableSync/Coverage.lean
  Subject:   SUFFIX-COVERAGE OBLIGATIONS over whole runs (`coverage.rs`): an adopted floor owes the
             suffix through the tip advertised with it, and only delivery settles that.

  Delivery is detected by the presence of one hash. That the stored suffix then has no gap is an
  invariant: the path of a chain starts at the entry the chain was last rooted at, as long as an
  obligation of it stands (`Owes`).

  * `Rooted` -- a run with the entry each chain was last rooted at;
  * `Settles` -- what any operation does to the obligations, said once;
  * `coverage_follows_root` -- recorded by adoptions, settled by delivery, replaced by adoptions alone.

  Re-adoption work gives up the obligations of a device removed from the account, where it is enqueued:
  by the fold of the account, or by the first arrival of a stream that records its context. It is not
  one of the operations here.
-/
import RagRat.TableSync.Stream

namespace RagRat.TableSync

open List
open ChainLog

variable {report : IngestReport} {log log' : ChainLog} {new : List VerifiedEntry}
  {before : Option Nat} {ctx ctx' : SyncCtx} {bound floor : Nat} {v : VerifiedEntry}
  {root : Option VerifiedEntry} {σ σ' : StreamStore}
  {roots : DeviceFingerprint → Option VerifiedEntry} {d device : DeviceFingerprint}
  {tip : ChainCursor} {op : StreamOp} {sc : Scope} {r : Received}

/-! ## 1. An arrival appends, or adopts a root -/

/-- What an ingest does to the chains. -/
inductive Arrives (log log' : ChainLog) (v : VerifiedEntry) (advertised : Option ChainCursor) :
    Prop where
  | grown (new : List VerifiedEntry)
      (hno : adoptsFloor log v advertised = false ∨ log'.accepted = log.accepted)
      (ha : log'.accepted = log.accepted ++ new) (hf : log'.retainedFloors = log.retainedFloors)
  | adopted (new : List VerifiedEntry) (hadv : advertised = some v.cursor)
      (hadopt : adoptable log v.device v.cursor = true)
      (ha : log'.accepted = log.accepted ++ v :: new)
      (hf : log'.retainedFloors = (log.recordFloor v.device v.cursor).retainedFloors)

theorem Promotes.grows {σ σ' : Replica} (h : Promotes ctx device σ σ') :
    ∃ new, σ'.log.accepted = σ.log.accepted ++ new ∧
      σ'.log.retainedFloors = σ.log.retainedFloors := by
  induction h with
  | refl => exact ⟨[], (append_nil _).symm, rfl⟩
  | thin _ hthin ih =>
    obtain ⟨held, rfl, -⟩ := hthin
    exact ih
  | child _ _ _ hone ih =>
    obtain ⟨new, ha, hf⟩ := ih
    obtain ⟨o, hstep, -⟩ := (ingestOne_ingestsOne hone).of_dropGapped.step
    cases hstep with
    | held _ ha' hf' => exact ⟨new, ha'.trans ha, hf'.trans hf⟩
    | stored _ _ _ _ ha' hf' => exact ⟨new ++ [_], by rw [ha', ha, append_assoc], hf'.trans hf⟩
    | adopted _ _ hadv => cases hadv

theorem ingest_arrives {σ σ' : Replica} {advertised : Option ChainCursor}
    (h : ingest bound ctx σ v advertised = some (.ok (report, σ'))) :
    Arrives σ.log σ'.log v advertised := by
  obtain ⟨outcome, accepted, σ₁, hone, hprom, hnone⟩ := ingest_promotes h
  obtain ⟨o, hstep, hacc⟩ := (ingestOne_ingestsOne hone).step
  obtain ⟨new, ha, hf⟩ := hprom.grows
  cases hstep with
  | held ho ha' hf' =>
    obtain rfl : σ' = σ₁ := hnone (by rw [hacc, ho]; rfl)
    exact .grown [] (.inr ha') (ha'.trans (append_nil _).symm) hf'
  | stored _ _ hno _ ha' hf' =>
    rw [ha', append_assoc] at ha
    exact .grown _ (.inl hno) ha (hf.trans hf')
  | adopted _ _ hadv hadopt ha' hf' =>
    rw [ha', append_assoc] at ha
    exact .adopted new hadv hadopt ha (hf.trans hf')

/-! ## 2. The entry a chain was last rooted at -/

/-- The entry is the floor its sender advertised, the chain may take it, and this call stored it. -/
def AdoptsRoot (σ σ' : StreamStore) (r : Received) : Prop :=
  adoptsFloor σ.log r.entry r.usableFloor = true ∧ r.entry ∉ σ.log.accepted ∧
    r.entry ∈ σ'.log.accepted

instance (σ σ' : StreamStore) (r : Received) : Decidable (AdoptsRoot σ σ' r) :=
  inferInstanceAs (Decidable (_ ∧ _))

/-- The entry an operation adopted as a root. -/
def StreamOp.adoptedRoot (σ σ' : StreamStore) : StreamOp → Option VerifiedEntry
  | .ingest _ _ r => if AdoptsRoot σ σ' r then some r.entry else none
  | _ => none

/-- Without an adoption: an empty chain is rooted at the first entry stored in it. -/
def carriedRoot (σ σ' : StreamStore) (d : DeviceFingerprint) (root : Option VerifiedEntry) :
    Option VerifiedEntry :=
  if (σ.log.chainOf d).isEmpty then (σ'.log.chainOf d).head?
  else if (σ'.log.chainOf d).isEmpty then none
  else root

/-- The root of each chain after an operation. -/
def rootAfter (op : StreamOp) (σ σ' : StreamStore) (roots : DeviceFingerprint → Option VerifiedEntry)
    (d : DeviceFingerprint) : Option VerifiedEntry :=
  match op.adoptedRoot σ σ' with
  | some v => if v.device = d then some v else carriedRoot σ σ' d (roots d)
  | none => carriedRoot σ σ' d (roots d)

/-- A run from empty, with the entry each chain was last rooted at. -/
inductive Rooted (sc : Scope) : StreamStore → (DeviceFingerprint → Option VerifiedEntry) → Prop where
  | start : Rooted sc .empty fun _ => none
  | step {σ σ' : StreamStore} {roots : DeviceFingerprint → Option VerifiedEntry}
      {new : List VerifiedEntry} (h : Rooted sc σ roots) (op : StreamOp)
      (hs : streamStep sc σ op = some (σ', new)) : Rooted sc σ' (rootAfter op σ σ' roots)

theorem Sound.pathOf_ne_nil (h : Sound log d) (hne : log.chainOf d ≠ []) : log.pathOf d ≠ [] := by
  suffices hex : ∃ e ∈ log.chainOf d, log.belowFloor d e.lamport = false by
    obtain ⟨e, he, hbelow⟩ := hex
    exact ne_nil_of_mem (mem_filter.mpr ⟨he, by rw [hbelow]; rfl⟩)
  cases hf : log.retainedFloors d with
  | none =>
    obtain ⟨e, he⟩ := exists_mem_of_ne_nil _ hne
    exact ⟨e, he, belowFloor_of_none hf _⟩
  | some f =>
    obtain ⟨e, he, rfl⟩ := h.floor f hf
    exact ⟨e, he, by rw [belowFloor_of_some hf]; simp [VerifiedEntry.cursor]⟩

theorem carriedRoot_eq_head (h : Sound σ.log d) (ha : σ'.log.accepted = σ.log.accepted ++ new)
    (hf : σ'.log.retainedFloors d = σ.log.retainedFloors d) (hroot : root = (σ.log.pathOf d).head?) :
    carriedRoot σ σ' d root = (σ'.log.pathOf d).head? := by
  have hchain : σ'.log.chainOf d = _ := chainOf_append ha
  have hpath : σ'.log.pathOf d = σ.log.pathOf d ++
      (new.filter fun e => e.device = d).filter fun e => !σ.log.belowFloor d e.lamport := by
    unfold pathOf
    rw [hchain, filter_append]
    congr 1 <;> exact filter_congr fun e _ => by rw [belowFloor_eq hf]
  unfold carriedRoot
  by_cases hnil : σ.log.chainOf d = []
  · -- an empty chain has no floor, so its path is all of it
    have hnone : σ.log.retainedFloors d = none := by
      cases hf' : σ.log.retainedFloors d with
      | none => rfl
      | some f =>
        obtain ⟨e, he, -⟩ := h.floor f hf'
        rw [hnil] at he
        cases he
    have hall : σ'.log.pathOf d = σ'.log.chainOf d := by
      unfold pathOf
      exact filter_eq_self.mpr fun e _ => by
        rw [belowFloor_eq hf, belowFloor_of_none hnone]
        rfl
    rw [hnil, hall]
    rfl
  · have hnil' : σ'.log.chainOf d ≠ [] := by
      rw [hchain]
      exact append_ne_nil_of_left_ne_nil hnil _
    rw [if_neg (by simpa using hnil), if_neg (by simpa using hnil'), hroot, hpath,
      head?_append_of_ne_nil _ (h.pathOf_ne_nil hnil)]

/-! ## 3. What an operation does to the obligations -/

/-- The obligations of one chain. -/
def StreamStore.obligationsOf (σ : StreamStore) (d : DeviceFingerprint) : List Obligation :=
  (σ.coverage.filter fun c => c.1 = d).map (·.2)

open StreamStore

/-- **Everything an operation can do to the obligations and the chains they are about.** -/
inductive Settles (σ : StreamStore) (op : StreamOp) (σ' : StreamStore) : Prop where
  /-- nothing was owed, and nothing is -/
  | idle (hno : op.adoptedRoot σ σ' = none) (hcov : σ.coverage = []) (hcov' : σ'.coverage = [])
  | purged (hno : op.adoptedRoot σ σ' = none) (hcov : σ'.coverage = σ.coverage)
      (ha : σ'.log.accepted = []) (hf : σ'.log.retainedFloors = fun _ => none)
  /-- the chains grew, and what is delivered by that is settled -/
  | grown (hno : op.adoptedRoot σ σ' = none) (new : List VerifiedEntry)
      (ha : σ'.log.accepted = σ.log.accepted ++ new)
      (hf : σ'.log.retainedFloors = σ.log.retainedFloors)
      (hcov : ∀ c, c ∈ σ'.coverage → c ∈ σ.coverage)
      (hgone : ∀ c ∈ σ.coverage, c ∉ σ'.coverage → delivered σ'.log c.1 c.2.tip = true)
  | adopted (bound : Nat) (ctx : SyncCtx) (r : Received) (tip : ChainCursor)
      (hop : op = .ingest bound ctx r) (hroot : op.adoptedRoot σ σ' = some r.entry)
      (new : List VerifiedEntry) (htip : r.advertisedTip = some tip)
      (hle : r.entry.lamport ≤ tip.lamport)
      (hadopt : adoptable σ.log r.entry.device r.entry.cursor = true)
      (ha : σ'.log.accepted = σ.log.accepted ++ r.entry :: new)
      (hf : σ'.log.retainedFloors = (σ.log.recordFloor r.entry.device r.entry.cursor).retainedFloors)
      (hcov : σ'.coverage =
        (σ.recordCoverage r.entry.device r.entry.lamport tip).coverage.filter fun c =>
          ¬ (c.1 = r.entry.device ∧ delivered σ'.log r.entry.device c.2.tip))

theorem settleCoverage_of_same (h : σ.log.retainedFloor device = before) (tip : Option ChainCursor) :
    σ.settleCoverage device before tip = σ.clearDelivered device := by
  unfold settleCoverage
  simp only [h, ne_eq, not_true_eq_false, if_false]
  split <;> rfl

theorem tip_of_usableFloor {floor : ChainCursor} (h : r.usableFloor = some floor)
    (hok : suffixRefusal r.usableFloor r.advertisedTip = none) :
    ∃ tip, r.advertisedTip = some tip ∧ floor.lamport ≤ tip.lamport := by
  rw [h] at hok
  unfold Received.usableFloor at h
  cases htip : r.advertisedTip with
  | none =>
    rw [htip] at h
    cases h
  | some tip =>
    rw [htip] at hok
    refine ⟨tip, rfl, ?_⟩
    simp only [suffixRefusal] at hok
    split at hok
    · cases hok
    · rename_i hboth
      exact (not_not.mp hboth).1

theorem ingested_settles {ρ : Replica} (hs : ∀ d, Sound σ.log d)
    (hok : suffixRefusal r.usableFloor r.advertisedTip = none)
    (hing : ingest bound ctx' σ.toReplica r.entry r.usableFloor = some (.ok (report, ρ))) :
    Settles σ (.ingest bound ctx r) ({ σ with toReplica := ρ }.settleCoverage r.entry.device
      (σ.log.retainedFloor r.entry.device) r.advertisedTip) := by
  cases ingest_arrives hing with
  | grown new hno ha hf =>
    have hsame : ρ.log.retainedFloor r.entry.device = σ.log.retainedFloor r.entry.device := by
      unfold retainedFloor
      rw [hf]
    rw [settleCoverage_of_same hsame]
    refine .grown (if_neg fun hadopts => ?_) new ha hf (fun c hc => (mem_filter.mp hc).1)
      fun c hc hgone => ?_
    · rcases hno with hno | hkept
      · rw [hadopts.1] at hno
        cases hno
      · exact hadopts.2.1 (hkept ▸ hadopts.2.2)
    · have hboth : c.1 = r.entry.device ∧ delivered ρ.log r.entry.device c.2.tip := by
        by_contra hnot
        exact hgone (mem_filter.mpr ⟨hc, decide_eq_true hnot⟩)
      rw [hboth.1]
      exact hboth.2
  | adopted new hadv hadopt ha hf =>
    obtain ⟨tip, htip, hle⟩ := tip_of_usableFloor hadv hok
    have hfloor : ρ.log.retainedFloor r.entry.device = some r.entry.lamport := by
      unfold retainedFloor
      rw [hf, floors_of_adoptable (hs _) hadopt, Function.update_self]
      rfl
    have hmoved : σ.log.retainedFloor r.entry.device ≠ some r.entry.lamport := by
      intro hsame
      obtain ⟨f, hf', hlam⟩ := Option.map_eq_some_iff.mp hsame
      have hlt : f.lamport < r.entry.lamport := floor_lt_of_adoptable (hs _) hadopt f hf'
      omega
    have hfresh : r.entry ∉ σ.log.accepted := fun hmem =>
      absurd ((tops_of_adoptable (hs _) hadopt).stored r.entry
        (mem_filter.mpr ⟨hmem, decide_eq_true rfl⟩)) (lt_irrefl _)
    rw [htip]
    unfold settleCoverage
    simp only [hfloor, ne_eq, hmoved.symm, not_false_eq_true, if_true]
    refine .adopted bound ctx r tip rfl (if_pos ⟨?_, hfresh, ?_⟩) new htip hle hadopt ha hf rfl
    · rw [hadv]
      exact decide_eq_true ⟨rfl, hadopt⟩
    · show r.entry ∈ ρ.log.accepted
      rw [ha]
      exact mem_append_right _ mem_cons_self

theorem streamStep_settles (hs : ∀ d, Sound σ.log d) (h : streamStep sc σ op = some (σ', new)) :
    Settles σ op σ' := by
  have hgrown : op.adoptedRoot σ σ' = none → σ'.coverage = σ.coverage →
      σ'.log.accepted = σ.log.accepted → σ'.log.retainedFloors = σ.log.retainedFloors →
      Settles σ op σ' := by
    intro hno hcov ha hf
    exact .grown hno [] (ha.trans (append_nil _).symm) hf (fun c hc => hcov ▸ hc)
      fun c hc hgone => absurd (hcov.symm ▸ hc) hgone
  cases streamStep_stepped hs h with
  | dropped => exact hgrown (if_neg fun hadopts => hadopts.2.1 hadopts.2.2) rfl rfl rfl
  | ingested hok hing => exact ingested_settles hs hok hing
  | authored hv =>
    have hidle : σ.coverage = [] := by simpa [streamPending] using hv.settled
    exact .idle rfl hidle (hv.coverage.trans hidle)
  | replayed _ hsame => exact hgrown rfl rfl hsame.accepted hsame.floors
  | waits => exact hgrown rfl rfl rfl rfl
  | compacted hidle => exact .idle rfl hidle hidle
  | plain hop hkind =>
    cases op with
    | purge =>
      cases hop
      exact .purged rfl rfl rfl rfl
    | localWork | expire | otherStreams =>
      cases hop
      exact hgrown rfl rfl rfl rfl
    | _ => cases hkind

/-! ## 4. What is owed, and from where -/

/-- The tip is not below the floor, and the path starts where the chain was last rooted. -/
structure Owes (log : ChainLog) (d : DeviceFingerprint) (root : Option VerifiedEntry)
    (tip : ChainCursor) : Prop where
  above : log.belowFloor d tip.lamport = false
  rooted : root = (log.pathOf d).head?

/-- The tip itself is stored, and stored entries link it down to `root`. -/
def DeliveredFrom (log : ChainLog) (d : DeviceFingerprint) (root : Option VerifiedEntry)
    (tip : ChainCursor) : Prop :=
  ∃ l : List VerifiedEntry, l.IsChain Links ∧ (∀ e ∈ l, e ∈ log.chainOf d) ∧ l.head? = root ∧
    ∃ z, l.getLast? = some z ∧ z.cursor = tip

theorem mem_chainOf_of_delivered (h : delivered log d tip = true) :
    ∃ z ∈ log.chainOf d, z.cursor = tip := by
  obtain ⟨e, he, hboth⟩ := any_eq_true.mp h
  obtain ⟨hdev, hlam, hhash⟩ := of_decide_eq_true hboth
  refine ⟨e.toVerifiedEntry, mem_filter.mpr ⟨mem_map_of_mem he, decide_eq_true hdev⟩, ?_⟩
  rw [VerifiedEntry.cursor, hlam, hhash]

theorem Owes.deliveredFrom (ho : Owes log d root tip) (hs : Sound log d)
    (hdel : delivered log d tip = true) : DeliveredFrom log d root tip := by
  obtain ⟨z, hz, rfl⟩ := mem_chainOf_of_delivered hdel
  have hpath : z ∈ log.pathOf d := mem_filter.mpr ⟨hz, by
    have := ho.above
    rw [VerifiedEntry.cursor] at this
    rw [this]
    rfl⟩
  obtain ⟨l₁, l₂, hl⟩ := append_of_mem hpath
  have hpre : l₁ ++ [z] <+: log.pathOf d := ⟨l₂, by rw [hl]; simp⟩
  refine ⟨l₁ ++ [z], hs.linked.prefix hpre, fun e he => ?_, ?_, z, by simp, rfl⟩
  · exact mem_of_mem_filter (hpre.subset he)
  · rw [ho.rooted, hl]
    cases l₁ <;> rfl

/-- Every obligation of the store can be read off its chain. -/
def Owed (σ : StreamStore) (roots : DeviceFingerprint → Option VerifiedEntry) : Prop :=
  ∀ c ∈ σ.coverage, Owes σ.log c.1 (roots c.1) c.2.tip

theorem Owes.grown (ho : Owes σ.log d (roots d) tip) (hs : Sound σ.log d)
    (ha : σ'.log.accepted = σ.log.accepted ++ new)
    (hf : σ'.log.retainedFloors d = σ.log.retainedFloors d) :
    Owes σ'.log d (carriedRoot σ σ' d (roots d)) tip where
  above := by
    rw [belowFloor_eq hf]
    exact ho.above
  rooted := carriedRoot_eq_head hs ha hf ho.rooted

theorem owes_purged (ha : σ'.log.accepted = []) (hf : σ'.log.retainedFloors = fun _ => none)
    (root : Option VerifiedEntry) : Owes σ'.log d (carriedRoot σ σ' d root) tip := by
  have hnil : σ'.log.chainOf d = [] := by
    unfold chainOf
    rw [ha]
    rfl
  refine ⟨belowFloor_of_none (congrFun hf d) _, ?_⟩
  unfold carriedRoot pathOf
  rw [hnil]
  split <;> rfl

theorem owes_adopted (hs : Sound σ.log v.device) (hadopt : adoptable σ.log v.device v.cursor = true)
    (hle : v.lamport ≤ tip.lamport) (ha : σ'.log.accepted = σ.log.accepted ++ v :: new)
    (hf : σ'.log.retainedFloors = (σ.log.recordFloor v.device v.cursor).retainedFloors) :
    Owes σ'.log v.device (some v) tip := by
  obtain ⟨hfloor, hpath⟩ := pathOf_adopted hs hadopt ha hf
  refine ⟨?_, by rw [hpath]; rfl⟩
  rw [belowFloor_of_some hfloor]
  exact decide_eq_false (not_lt_of_ge hle)

/-- **One operation**: what it leaves owed can be read off the chains, and what it took away was
    delivered from the root, or replaced by an adoption above the whole chain. -/
theorem Owed.step (ho : Owed σ roots) (hs : ∀ d, Sound σ.log d) (hs' : ∀ d, Sound σ'.log d)
    (h : Settles σ op σ') :
    Owed σ' (rootAfter op σ σ' roots) ∧ ∀ c ∈ σ.coverage, c ∉ σ'.coverage →
      DeliveredFrom σ'.log c.1 (rootAfter op σ σ' roots c.1) c.2.tip ∨
      ∃ bound ctx r, op = .ingest bound ctx r ∧ r.entry.device = c.1 ∧ AdoptsRoot σ σ' r ∧
        ∀ e ∈ σ.log.chainOf c.1, e.lamport < r.entry.lamport := by
  cases h with
  | idle hno hcov hcov' =>
    refine ⟨fun c hc => ?_, fun c hc => ?_⟩
    · rw [hcov'] at hc
      cases hc
    · rw [hcov] at hc
      cases hc
  | purged hno hcov ha hf =>
    refine ⟨fun c _ => ?_, fun c hc hgone => absurd (hcov.symm ▸ hc) hgone⟩
    simp only [rootAfter, hno]
    exact owes_purged ha hf _
  | grown hno new ha hf hcov hgone =>
    have howes : ∀ c ∈ σ.coverage, Owes σ'.log c.1 (rootAfter op σ σ' roots c.1) c.2.tip := by
      intro c hc
      simp only [rootAfter, hno]
      exact (ho c hc).grown (hs c.1) ha (congrFun hf c.1)
    exact ⟨fun c hc => howes c (hcov c hc), fun c hc hnot =>
      .inl ((howes c hc).deliveredFrom (hs' c.1) (hgone c hc hnot))⟩
  | adopted bound ctx r tip hop hroot new htip hle hadopt ha hf hcov =>
    have hfloors : ∀ d, d ≠ r.entry.device → σ'.log.retainedFloors d = σ.log.retainedFloors d := by
      intro d hne
      rw [hf, floors_of_adoptable (hs _) hadopt, Function.update_of_ne hne]
    refine ⟨fun c hc => ?_, fun c hc hgone => ?_⟩
    · rw [hcov] at hc
      simp only [rootAfter, hroot]
      rcases mem_append.mp (mem_filter.mp hc).1 with hold | hnew
      · obtain ⟨hmem, hne⟩ := mem_filter.mp hold
        have hne : c.1 ≠ r.entry.device := of_decide_eq_true hne
        rw [if_neg (Ne.symm hne)]
        exact (ho c hmem).grown (hs c.1) ha (hfloors c.1 hne)
      · rw [mem_singleton.mp hnew, if_pos rfl]
        exact owes_adopted (hs _) hadopt hle ha hf
    · by_cases hdev : c.1 = r.entry.device
      · have hadopts : AdoptsRoot σ σ' r := by
          subst hop
          by_contra hnot
          rw [StreamOp.adoptedRoot, if_neg hnot] at hroot
          cases hroot
        refine .inr ⟨bound, ctx, r, hop, hdev.symm, hadopts, ?_⟩
        rw [hdev]
        exact (tops_of_adoptable (hs _) hadopt).stored
      · -- the obligation of another chain stays
        refine absurd ?_ hgone
        rw [hcov]
        exact mem_filter.mpr ⟨mem_append_left _ (mem_filter.mpr
          ⟨hc, decide_eq_true hdev⟩), decide_eq_true fun hboth => hdev hboth.1⟩

theorem Rooted.owed (h : Rooted sc σ roots) : (∀ d, Sound σ.log d) ∧ Owed σ roots := by
  induction h with
  | start => exact ⟨sound_empty _, nofun⟩
  | step _ op hs ih =>
    have hsound := (streamStep_touches ih.1 hs).sound ih.1
    exact ⟨hsound, (ih.2.step ih.1 hsound (streamStep_settles ih.1 hs)).1⟩

/-! ## 5. Obligations follow the root -/

theorem obligationsOf_adopted
    (hcov : σ'.coverage = (σ.recordCoverage d floor tip).coverage.filter fun c =>
      ¬ (c.1 = d ∧ delivered σ'.log d c.2.tip)) :
    σ'.obligationsOf d = if delivered σ'.log d tip then [] else [⟨floor, tip⟩] := by
  have hold : ((σ.coverage.filter fun c => c.1 ≠ d).filter fun c =>
      ¬ (c.1 = d ∧ delivered σ'.log d c.2.tip)).filter (fun c => c.1 = d) = [] := by
    refine filter_eq_nil_iff.mpr fun c hc => ?_
    have hne := (mem_filter.mp (mem_filter.mp hc).1).2
    simpa using hne
  unfold obligationsOf
  rw [hcov]
  unfold recordCoverage
  simp only [filter_append, hold, nil_append]
  by_cases hdel : delivered σ'.log d tip = true
  · simp [hdel]
  · simp [hdel]

/-- **Suffix-coverage obligations follow the root.** In every run, an adoption of an advertised
    floor records one obligation for the chain, of that floor and the tip advertised with it, or
    none when that tip is then delivered. It goes only when its tip is stored and linked to the
    entry the chain was last rooted at, or when a floor above the whole stored chain is adopted in
    its place. While one stands, nothing is authored on the stream and compaction changes nothing.
    -/
theorem coverage_follows_root (sc : Scope) (σ : StreamStore)
    (roots : DeviceFingerprint → Option VerifiedEntry) (h : Rooted sc σ roots) :
    (∀ bound ctx r σ' new, streamStep sc σ (.ingest bound ctx r) = some (σ', new) →
      AdoptsRoot σ σ' r → ∃ tip, r.advertisedTip = some tip ∧
        (σ'.obligationsOf r.entry.device = [⟨r.entry.lamport, tip⟩] ∨
          σ'.obligationsOf r.entry.device = [] ∧
            DeliveredFrom σ'.log r.entry.device (some r.entry) tip)) ∧
    (∀ op σ' new, streamStep sc σ op = some (σ', new) → ∀ d ob, (d, ob) ∈ σ.coverage →
      (d, ob) ∉ σ'.coverage →
        DeliveredFrom σ'.log d (rootAfter op σ σ' roots d) ob.tip ∨
        ∃ bound ctx r, op = .ingest bound ctx r ∧ r.entry.device = d ∧ AdoptsRoot σ σ' r ∧
          ∀ e ∈ σ.log.chainOf d, e.lamport < r.entry.lamport) ∧
    (σ.coverage ≠ [] →
      (∀ device hash op addressable,
        ∃ why, authorOnStream sc σ device hash op addressable = .error why) ∧
      ∀ device floor, compactOverdue sc σ device floor = .ok (0, σ)) := by
  obtain ⟨hsound, howed⟩ := h.owed
  refine ⟨fun bound ctx r σ' new hs hadopts => ?_, fun op σ' new hs d ob hmem hgone => ?_,
    fun hne => ?_⟩
  · have hsound' := (streamStep_touches hsound hs).sound hsound
    have hroot : (StreamOp.ingest bound ctx r).adoptedRoot σ σ' = some r.entry := if_pos hadopts
    cases streamStep_settles hsound hs with
    | idle hno | purged hno | grown hno =>
      rw [hroot] at hno
      cases hno
    | adopted bound' ctx' r' tip hop _ rest htip hle hadopt ha hf hcov =>
      cases hop
      refine ⟨tip, htip, ?_⟩
      rw [obligationsOf_adopted hcov]
      by_cases hdel : delivered σ'.log r.entry.device tip = true
      · refine .inr ⟨if_pos hdel, ?_⟩
        exact (owes_adopted (hsound _) hadopt hle ha hf).deliveredFrom (hsound' _) hdel
      · exact .inl (if_neg hdel)
  · have hsound' := (streamStep_touches hsound hs).sound hsound
    exact (howed.step hsound hsound' (streamStep_settles hsound hs)).2 (d, ob) hmem hgone
  · have hpending : σ.streamPending = true := by
      unfold streamPending
      simpa using hne
    refine ⟨fun device hash op addressable => ⟨_, if_pos hpending⟩, fun device floor => ?_⟩
    exact if_pos hpending

/-- Run the operations in order, with the roots. -/
def runRooted (sc : Scope) (σ : StreamStore) (roots : DeviceFingerprint → Option VerifiedEntry) :
    List StreamOp → Option (StreamStore × (DeviceFingerprint → Option VerifiedEntry))
  | [] => some (σ, roots)
  | op :: ops =>
    match streamStep sc σ op with
    | some (σ', _) => runRooted sc σ' (rootAfter op σ σ' roots) ops
    | none => none

theorem Rooted.run (h : Rooted sc σ roots) {ops : List StreamOp}
    {r : StreamStore × (DeviceFingerprint → Option VerifiedEntry)}
    (hr : runRooted sc σ roots ops = some r) : Rooted sc r.1 r.2 := by
  induction ops generalizing σ roots with
  | nil =>
    cases hr
    exact h
  | cons op ops ih =>
    unfold runRooted at hr
    split at hr
    · rename_i σ' new hs
      exact ih (h.step op hs) hr
    · cases hr

/-- The floor at 5 arrives with a tip at 6, then the tip. -/
def adoptNote : StreamOp :=
  receiveNote (noteUpsert 105 5 (some 104) "a") (some ⟨5, 105⟩) (some ⟨6, 106⟩)

def deliverNote : StreamOp := receiveNote (noteUpsert 106 6 (some 105) "b") none none

/-- The tip discharges what the floor left owed, and is linked to it. -/
theorem coverage_follows_root_note :
    ∃ σ roots σ' new, runRooted noteScope .empty (fun _ => none) [adoptNote] = some (σ, roots) ∧
      σ.coverage = [(7, ⟨5, ⟨6, 106⟩⟩)] ∧ streamStep noteScope σ deliverNote = some (σ', new) ∧
      σ'.coverage = [] ∧
      DeliveredFrom σ'.log 7 (rootAfter deliverNote σ σ' roots 7) ⟨6, 106⟩ := by
  have hrun : ((runRooted noteScope .empty (fun _ => none) [adoptNote]).bind fun r =>
      (streamStep noteScope r.1 deliverNote).map fun s => (r.1.coverage, s.1.coverage)) =
        some ([(7, ⟨5, ⟨6, 106⟩⟩)], []) := by decide +kernel
  obtain ⟨⟨σ, roots⟩, hr, hstep⟩ := Option.bind_eq_some_iff.mp hrun
  obtain ⟨⟨σ', new⟩, hs, hcov⟩ := Option.map_eq_some_iff.mp hstep
  obtain ⟨hcov, hcov'⟩ := Prod.mk.inj hcov
  have hmem : (7, ⟨5, ⟨6, 106⟩⟩) ∈ σ.coverage := by
    rw [show σ.coverage = _ from hcov]
    exact mem_cons_self
  have hgone : (7, ⟨5, ⟨6, 106⟩⟩) ∉ σ'.coverage := by
    rw [show σ'.coverage = _ from hcov']
    exact not_mem_nil
  refine ⟨σ, roots, σ', new, hr, hcov, hs, hcov', ?_⟩
  rcases (coverage_follows_root noteScope σ roots (Rooted.start.run hr)).2.1 deliverNote σ' new hs 7 _
    hmem hgone with hdel | ⟨bound, ctx, r, hop, -, hadopts, -⟩
  · exact hdel
  · cases hop
    cases hadopts.1

end RagRat.TableSync
