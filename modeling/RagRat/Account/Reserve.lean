/-
  File:      RagRat/Account/Reserve.lean
  Subject:   THE OWNER THAT IS RESERVED, and what it takes to keep it.

  At every depth the cuts that close owners are tried in order, and the last owner of the depths before is spared.
  The spared owner is one of the pass: it is left in the outcomes where the pass and its replay have the same
  owners.

  * `Sheltered` -- the entries the reservation is enough for.
  * `Guarded` -- the owners of the pass are mints of the replay's ledger that nothing judged so far closes.
  * **`owner_reserved`** -- the ledger of sheltered entries has a mint that it does not close.
-/
import RagRat.Account.Undisputed

namespace RagRat.Account

open List
open Lib.Register Lib.Keyed
open Lib.Cbor (Bytes)
open FoldState Function Incarnations Option Candidate

variable {ctx : FoldContext} {ex o : Outcomes} {d founder : DeviceFingerprint} {c m r genesis : Candidate}
  {led done post all : List Candidate} {inc : Incarnations} {v : FoldVerdicts} {state : FoldState}

/-! ## 1. Sheltered entries -/

/-- No entry of the first depth closes the founder, no named cut goes against an enrollment or a
    mint, the mints are undisputed, and none is demoted by an entry judged before it. -/
structure Sheltered (ctx : FoldContext) : Prop where
  founder : ∀ c ∈ ctx.candidates, ctx.incarnations.authorDepth c = some 0 →
    ∀ g ∈ ctx.candidates, g.hash = ctx.rootId → c.closes g = false
  uncut : ∀ c ∈ ctx.candidates, c.isMint = true ∨ c.enrolls ≠ none → c.hash ≠ ctx.rootId →
    ∀ key ∈ RegisterKey.scoping c.header, ∀ cut, ctx.Names key cut →
      beyond c.header.seq cut = false ∧ ancestry c.hash cut ctx.view = .onBranch
  undisputed : ∀ c ∈ ctx.candidates, c.isMint = true → (ctx.incarnations.authorDepth c).isSome →
    (∀ pubkey, c.op ≠ .accountGenesis pubkey) → Undisputed ctx.incarnations c
  demoted : ∀ c ∈ ctx.candidates, ∀ m ∈ ctx.candidates, ctx.incarnations.judgedBefore c m = true →
    c.closes m = true → c.removes ≠ none

/-! ## 2. The owners of a run -/

theorem owners_kept (h : state.owners.lookup m.subjectDevice = some m.hash)
    (hroster : (state.roster m.subjectDevice).isSome) (hadmits : classifyOp c state = .effective)
    (hgen : ∀ pubkey, c.op ≠ .accountGenesis pubkey) (hopen : c.closes m = false) :
    (state.enact c).owners.lookup m.subjectDevice = some m.hash := by
  unfold classifyOp at hadmits
  unfold closes at hopen
  unfold enact applyEffect takeEpoch
  cases hop : c.op with
  | accountGenesis pubkey => exact absurd hop (hgen pubkey)
  | deviceAdd e role =>
    have hne : m.subjectDevice ≠ e := by
      rintro rfl
      simp only [hop, hroster, if_true] at hadmits
      split at hadmits <;> cases hadmits
    by_cases hrole : role = .owner
    · simp [hrole, AList.lookup_insert_ne hne, h]
    · simp [hrole, h]
  | ownerPromote e =>
    have hne : m.subjectDevice ≠ e := by
      rintro rfl
      simp [hop, h] at hadmits
    simp [AList.lookup_insert_ne hne, h]
  | deviceRemove e cc sc cuts =>
    simp only [hop, decide_eq_false_iff_not] at hopen
    simp [AList.lookup_erase_ne (Ne.symm hopen), h]
  | ownerDemote e id cc sc =>
    simp only [hop, decide_eq_false_iff_not] at hopen
    simp only [closesOpenIncarnation]
    split
    · rename_i hclose
      have hne : m.subjectDevice ≠ e := by
        rintro rfl
        simp only [h, some.injEq] at hclose
        simp_all
      simp [AList.lookup_erase_ne hne, h]
    · exact h
  | _ => exact h

theorem closes_of_isMint (h : c.isMint = true) (m : Candidate) : c.closes m = false := by
  unfold isMint at h
  unfold closes
  split at h <;> simp_all

/-- What closes an open incarnation cuts, and closes the owner of its device. -/
theorem closes_open (h : c.closes m = true) (hid : state.owners.lookup m.subjectDevice = some m.hash) :
    cutOpRegisters c ≠ [] ∧ closesOpenIncarnation c.op state.owners = some m.subjectDevice := by
  unfold closes at h
  unfold cutOpRegisters closesOpenIncarnation
  cases hop : c.op with
  | deviceRemove e cc sc cuts =>
    simp only [hop, decide_eq_true_eq] at h
    subst h
    simp [hid]
  | ownerDemote e id cc sc =>
    simp only [hop, decide_eq_true_eq] at h
    obtain ⟨rfl, rfl⟩ := h
    simp [hid]
  | _ => simp [hop] at h

/-- What acts and who is an owner is in the ledger, and nothing of it that is judged closes an
    owner. -/
structure Guarded (inc : Incarnations) (led done : List Candidate) (state : FoldState) : Prop
    extends Beside inc led done state where
  live : ∀ id ∈ state.live, id = inc.genesisOwnerId ∨ ∃ m ∈ done, m ∈ led ∧ m.hash = id
  roles : ∀ d role, state.enrollmentRoles d = some role →
    ∃ b ∈ done, (Undisputed inc b → b ∈ led) ∧ b.enrolls = some d ∧ b.role = some role
  roster : ∀ d, (state.owners.lookup d).isSome → (state.roster d).isSome
  owned : ∀ d id, state.owners.lookup d = some id → ∃ m ∈ done, m ∈ led ∧ m.isMint = true ∧
    m.subjectDevice = d ∧ m.hash = id ∧ ∀ r ∈ done, r ∈ led → r.closes m = false

theorem guarded_seeded (inc : Incarnations) (led : List Candidate) :
    Guarded inc led [] (seeded inc.genesisOwnerId) where
  toBeside := beside_seeded inc led
  live _ h := .inl (Finset.mem_singleton.mp h)
  roles _ _ h := by cases h
  roster _ h := by simp [seeded] at h
  owned _ _ h := by simp [seeded] at h

/-- What a run over `all` and the ledger of its replay are to each other. -/
structure Ledgered (inc : Incarnations) (led all : List Candidate) : Prop extends Replayed inc led all where
  rooted : ∀ c ∈ all, c.hash = inc.genesisOwnerId → c ∈ led
  undisputed : ∀ c ∈ all, c.isMint = true → (∀ pubkey, c.op ≠ .accountGenesis pubkey) → Undisputed inc c
  complete : ∀ done c post, all = done ++ c :: post → Undisputed inc c → c.hash ≠ inc.genesisOwnerId →
    Vouched inc led done c → c ∈ led
  opens : ∀ m ∈ led, m.isMint = true → ∀ c ∈ led, inc.judgedBefore c m = true → c.closes m = false

/-- The mints of the ledger are undisputed. -/
theorem Ledgered.minted (hl : Ledgered inc led all) {id : OwnerId} (hled : m ∈ led) (hmint : inc.candidate id = some m)
    (hroot : id ≠ inc.genesisOwnerId) : Undisputed inc m := by
  obtain ⟨-, hmm, rfl⟩ := (find?_key_eq_some_iff hl.distinct).mp hmint
  exact hl.undisputed m (hl.sublist.subset hled) hmm (hl.lawful.not_genesis hled hroot)

section Run

variable (hl : Ledgered inc led all) (h : Guarded inc led done state) (hsplit : all = done ++ c :: post)

include hl h hsplit

theorem Guarded.not_genesis (hen : Enacts inc v state c) (hne : c.hash ≠ inc.genesisOwnerId) (pubkey : Bytes) :
    c.op ≠ .accountGenesis pubkey := by
  intro hop
  obtain ⟨id, mint, hid, -, -, hlive⟩ := hen.author
  obtain rfl : c.hash = id := by simpa [authorIncarnationId, hop] using hid
  obtain ⟨b, hb, -, hhash⟩ := (h.live _ hlive).resolve_left hne
  obtain ⟨hbne, hbc, -⟩ := hl.earlier hsplit hb
  exact hbne (hl.distinct.eq_of_hash hbc (hl.candidates (hsplit ▸ by simp)) hhash)

theorem Guarded.entered (hen : Enacts inc v state c) (hund : Undisputed inc c) : c ∈ led := by
  have hbefore := fun x hx => (@Replayed.earlier c led done post inc all hl.toReplayed hsplit x hx).2
  by_cases hne : c.hash = inc.genesisOwnerId
  · exact hl.rooted c (hsplit ▸ by simp) hne
  refine hl.complete done c post hsplit hund hne ⟨?_, fun d hop => ?_⟩
  · obtain ⟨id, mint, hid, hmint, hdev, hlive⟩ := hen.author
    obtain ⟨hmem, -, hhash⟩ := (find?_key_eq_some_iff hl.distinct).mp hmint
    refine ⟨id, mint, hid, hmint, hdev, (h.live id hlive).imp_right ?_⟩
    rintro ⟨b, hb, hbled, hbid⟩
    obtain rfl := hl.distinct.eq_of_hash (hbefore b hb).1 hmem (hbid.trans hhash.symm)
    exact ⟨hb, hbled⟩
  · have hadmits := hen.admits
    cases hrole : state.enrollmentRoles d with
    | none => simp [classifyOp, hop, hrole] at hadmits
    | some role =>
      obtain ⟨b, hb, hbled, hbd, hbrole⟩ := h.roles d role hrole
      refine ⟨b, hb, hbled ?_, hbd, ?_⟩
      · cases hund with
        | genesis hroot => exact absurd hroot hne
        | adds hop' => simp [hop] at hop'
        | promotes hop' _ _ _ henrolled hfirst =>
          cases hop.symm.trans hop'
          exact (hfirst b (hbefore b hb).1 (hbefore b hb).2).1 hbd ▸ henrolled
      · by_contra hno
        rw [hbrole] at hno
        simp only [any_some] at hno
        simp [classifyOp, hop, hrole, hno] at hadmits

theorem Guarded.closing (hc : c ∈ led) (howned : state.owners.lookup m.subjectDevice = some m.hash)
    (hclose : c.closes m = true) (parked : EntryHash → Option ParkReason) :
    classifyEffect c inc state parked = .effective := by
  obtain ⟨id, mint, hid, hmint, hdev, hauthor⟩ := (hl.vouched hsplit hc).author
  have hlive : authorityStatus c inc state parked = .live :=
    h.lives hl.distinct hid hmint hdev (or_iff_not_imp_left.mpr fun hroot =>
      have hmint := hauthor.resolve_left hroot
      ⟨hmint.1, hmint.2, hl.minted hmint.2 ‹_› hroot⟩)
  rw [classifyEffect, hlive]
  unfold closes at hclose
  split at hclose
  · rename_i e cc sc cuts hop
    have hroster := h.roster _ (isSome_of_eq_some howned)
    rw [← of_decide_eq_true hclose] at hroster
    simp [classifyOp, hop, hroster]
  · rename_i hop
    simp [classifyOp, hop]
  · cases hclose

omit hl hsplit in
theorem Guarded.refused (hbeside : Beside inc led (done ++ [c]) state) (hfree : c ∈ led → ∀ m : Candidate,
    state.owners.lookup m.subjectDevice = some m.hash → c.closes m = false) : Guarded inc led (done ++ [c]) state := by
  refine ⟨hbeside, fun id hid => (h.live id hid).imp_right fun ⟨m, hm, hmid⟩ => ⟨m, mem_append_left _ hm, hmid⟩,
    fun d role hrole => exists_concat.mpr (.inl (h.roles d role hrole)), h.roster, fun d id howned => ?_⟩
  obtain ⟨m, hm, hmled, hmm, rfl, rfl, hopen⟩ := h.owned d id howned
  refine ⟨m, mem_append_left _ hm, hmled, hmm, rfl, rfl, forall_mem_append.mpr ⟨hopen, fun r hr hrled => ?_⟩⟩
  obtain rfl := mem_singleton.mp hr
  exact hfree hrled m howned

omit hl hsplit in
theorem Guarded.roster_enact (hadmits : classifyOp c state = .effective)
    (howned : ((state.enact c).owners.lookup d).isSome) : ((state.enact c).roster d).isSome := by
  obtain ⟨id, hid⟩ := isSome_iff_exists.mp howned
  rcases @enrollment_enact c state d with ⟨-, hroster, -⟩ | ⟨hrem, -⟩ | ⟨hno, -, hroster, -⟩
  · simp [hroster]
  · -- a removal leaves no owner
    rcases owners_enact hid with ⟨hold, hopen⟩ | ⟨hm, -⟩
    · obtain ⟨m, -, -, -, hdev, hhash, -⟩ := h.owned d id hold
      have hclose := hopen m hdev hhash
      unfold removes at hrem
      unfold closes at hclose
      split at hrem <;> simp_all
    · unfold removes at hrem
      unfold isMint at hm
      split at hrem <;> simp_all
  · rw [hroster]
    rcases owners_enact hid with ⟨hold, -⟩ | ⟨hm, hdev, -⟩
    · exact h.roster d (isSome_of_eq_some hold)
    · unfold isMint at hm
      unfold enrolls at hno
      unfold subjectDevice at hdev
      unfold classifyOp at hadmits
      split at hm <;> simp_all

theorem Guarded.enacted (hen : Enacts inc v state c) (hbeside : Beside inc led (done ++ [c]) (state.enact c)) :
    Guarded inc led (done ++ [c]) (state.enact c) := by
  have hlast : c ∈ all := hsplit ▸ by simp
  have hmint : c.isMint = true → c ∈ led := by
    intro hm
    by_cases hroot : c.hash = inc.genesisOwnerId
    · exact hl.rooted c hlast hroot
    · exact h.entered hl hsplit hen (hl.undisputed c hlast hm (h.not_genesis hl hsplit hen hroot))
  refine ⟨hbeside, fun id hid => ?_, fun d role hrole => ?_, fun d => h.roster_enact hen.admits, fun d id howned => ?_⟩
  · rcases live_enact.mp hid with hold | ⟨rfl, hm⟩
    · exact (h.live id hold).imp_right fun ⟨m, hm, hmid⟩ => ⟨m, mem_append_left _ hm, hmid⟩
    · exact .inr ⟨c, by simp, hmint hm, rfl⟩
  · refine exists_concat.mpr ?_
    rcases @enrollment_enact c state d with ⟨hd, -, hroles⟩ | ⟨-, hroles⟩ | ⟨-, -, -, hroles⟩ <;> rw [hroles] at hrole
    · exact .inr ⟨h.entered hl hsplit hen, hd, hrole⟩
    · cases hrole
    · exact .inl (h.roles d role hrole)
  · rcases owners_enact howned with ⟨hold, hopen⟩ | ⟨hm, rfl, rfl⟩
    · obtain ⟨m, hm, hmled, hmm, hdev, hhash, hfree⟩ := h.owned d id hold
      refine ⟨m, mem_append_left _ hm, hmled, hmm, hdev, hhash, forall_mem_append.mpr ⟨hfree, fun r hr _ => ?_⟩⟩
      exact mem_singleton.mp hr ▸ hopen m hdev hhash
    · refine ⟨c, by simp, hmint hm, hm, rfl, rfl, forall_mem_append.mpr ⟨fun r hr hrled => ?_, fun r hr _ => ?_⟩⟩
      · exact hl.opens c (hmint hm) hm r hrled (hl.earlier hsplit hr).2.2
      · exact mem_singleton.mp hr ▸ closes_of_isMint hm c

end Run

theorem Guarded.step {s : FoldState × Outcomes} (hl : Ledgered inc led all) (h : Guarded inc led done s.1)
    (hsplit : all = done ++ c :: post) {g : EntryHash} (hv : v.Refuses g)
    (hdec : c ∈ led → c.hash ≠ inc.genesisOwnerId → v.decided c.hash = none) :
    Guarded inc led (done ++ [c]) (effectStep inc v s c).1 := by
  have hbeside := h.toBeside.step hl.toReplayed hv hsplit hdec
  rcases @effectStep_cases g v s.1 inc hv s.2 c with ⟨x, hx, heq⟩ | ⟨hen, heq⟩
  · -- what is refused closes no owner
    have hfree : c ∈ led → ∀ m : Candidate, s.1.owners.lookup m.subjectDevice = some m.hash → c.closes m = false := by
      refine fun hled m howned => Bool.eq_false_iff.mpr fun hclose => ?_
      have hne : c.hash ≠ inc.genesisOwnerId := fun hroot => by
        rw [closes_of_isMint (hl.root c (hl.candidate hled) hroot)] at hclose
        cases hclose
      rw [effectStep_of_effective (hdec hled hne) (h.closing hl hsplit hled howned hclose _)] at heq
      cases some.inj ((Outcomes.insert_self _ _ _).symm.trans
        ((congrFun (congrArg Prod.snd heq) c.hash).trans (Outcomes.insert_self _ _ _)))
      cases hx
    rw [heq] at hbeside ⊢
    exact h.refused hbeside hfree
  · rw [heq] at hbeside ⊢
    exact h.enacted hl hsplit hen hbeside

section Steps

variable {g : EntryHash} {s : FoldState × Outcomes} (rest : List Candidate) (hl : Ledgered inc led all)
  (hv : v.Refuses g) (h : Guarded inc led done s.1) (hsplit : all = done ++ (rest ++ post))
  (hdec : ∀ c ∈ rest, c ∈ led → c.hash ≠ inc.genesisOwnerId → v.decided c.hash = none)

include hl hv h hsplit hdec

theorem Guarded.run : Guarded inc led (done ++ rest) (rest.foldl (effectStep inc v) s).1 := by
  induction rest generalizing done s with
  | nil => rwa [append_nil]
  | cons c rest ih =>
    obtain ⟨hc, hrest⟩ := forall_mem_cons.mp hdec
    rw [append_cons]
    exact ih (h.step hl hsplit hv hc) (by simpa using hsplit) hrest

theorem Guarded.spares {seen : List Candidate} (hseen : done ++ rest ⊆ seen) (hroot : ∀ c ∈ rest, c.hash ≠ inc.genesisOwnerId)
    (howned : s.1.owners.lookup m.subjectDevice = some m.hash)
    (hopen : ∀ c ∈ rest, ∀ st, (∀ id ∈ st.live, id = inc.genesisOwnerId ∨ ∃ a ∈ seen, a ∈ led ∧ a.hash = id) →
      Enacts inc v st c → c.closes m = false) :
    (rest.foldl (effectStep inc v) s).1.owners.lookup m.subjectDevice = some m.hash := by
  induction rest generalizing done s with
  | nil => exact howned
  | cons c rest ih =>
    obtain ⟨hc, hrest⟩ := forall_mem_cons.mp hdec
    obtain ⟨hcroot, hroot⟩ := forall_mem_cons.mp hroot
    obtain ⟨hcopen, hopen⟩ := forall_mem_cons.mp hopen
    refine ih (h.step hl hsplit hv hc) (by simpa using hsplit) hrest (by simpa using hseen) hroot ?_ hopen
    rcases @effectStep_cases g v s.1 inc hv s.2 c with ⟨x, -, heq⟩ | ⟨hen, heq⟩ <;> rw [heq]
    · exact howned
    · refine owners_kept howned (h.roster _ (isSome_of_eq_some howned)) hen.admits
        (h.not_genesis hl hsplit hen hcroot) (hcopen s.1 (fun id hid => ?_) hen)
      exact (h.live id hid).imp_right fun ⟨a, ha, haled⟩ => ⟨a, hseen (mem_append_left _ ha), haled⟩

end Steps

/-! ## 3. The depths of a sheltered account -/

section Depths

variable {strata : List (Nat × List Candidate)} {x : Nat × List Candidate} {s : DepthPass × Outcomes} {p : DepthPass}

section Depth

variable (hr : Rooted ctx) (hview : ∀ c ∈ ctx.candidates, ctx.view c.hash = some c.header) (hl : Ledgered ctx.incarnations led all)
  (hs : Stratified ctx (x :: strata)) (hv : s.1.verdicts.Refuses ctx.rootId) (hold : s.1.Derived ctx)
  (h : Guarded ctx.incarnations led done s.1.state) (hp : registerPass ctx x.1 x.2 s.1 = .ok p)
  (hstands : p.Stands ctx ctx.rootId s.1)

include hr hview hl hs hv hold h hp hstands

/-- **The reservation of a depth**: one of its owners is closed by nothing that acts at the depth. -/
theorem Guarded.reserved (hredo : (rederiveCondemnation ctx p).Derived ctx)
    (hdepth : ∀ c ∈ x.2, ctx.incarnations.authorDepth c = some x.1)
    (hroot : ∀ c ∈ x.2, c.hash ≠ ctx.rootId) (hown : s.1.state.owners.keys ≠ []) :
    ∃ m : Candidate, s.1.state.owners.lookup m.subjectDevice = some m.hash ∧ ∀ c ∈ sorted effectRank x.2,
      ∀ st, (∀ id ∈ st.live, id = ctx.rootId ∨ ∃ a ∈ done ++ sorted effectRank x.2, a ∈ led ∧ a.hash = id) →
        Enacts ctx.incarnations (rederiveCondemnation ctx p).verdicts st c → c.closes m = false := by
  obtain ⟨d, hd, hspared⟩ := ((registerPass_refuses (hs.members x mem_cons_self) (hs.uncut x mem_cons_self) hv
    x.1).2 p hp).2 hown
  obtain ⟨id, hid⟩ := isSome_iff_exists.mp hd
  obtain ⟨m, -, -, -, rfl, rfl, -⟩ := h.owned d id hid
  refine ⟨m, hid, fun c hc st hlives hen => Bool.eq_false_iff.mpr fun hclose => ?_⟩
  replace hc := (mem_sorted effectRank).mp hc
  have hcc := hs.members x mem_cons_self hc
  have hundec := hen.undecided
  have hundecided := (rederive_keeps.trans hstands.toKeeps).undecided hredo hold (hview c hcc) hcc (hroot c hc) hundec
  -- its author was live when the depth began: the mint is of a lower depth
  obtain ⟨id, mint, hauthor, hmint, hdev, hlive⟩ := hen.author
  have hstart : authorityStatus c ctx.incarnations s.1.state s.1.verdicts.parked = .live := by
    refine h.lives hr.distinct hauthor hmint hdev (or_iff_not_imp_left.mpr fun hne => ?_)
    obtain ⟨a, ha, haled, rfl⟩ := (hlives id hlive).resolve_left hne
    obtain ⟨hmem, -, hhash⟩ := (find?_key_eq_some_iff hr.distinct).mp hmint
    obtain rfl := hr.distinct.eq_of_hash hmem (hl.candidate haled) hhash
    refine ⟨(mem_append.mp ha).resolve_right fun ha => ?_, haled, hl.minted haled hmint hne⟩
    exact lt_irrefl _ (authorDepth_lt hmint hne (hl.lawful.not_genesis haled hne) hauthor
      (hdepth mint ((mem_sorted effectRank).mp ha)) (hdepth c hc))
  obtain ⟨hcuts, hopen⟩ := closes_open hclose hid
  simp only [FoldVerdicts.decided, or_eq_none_iff] at hundec
  exact hspared c hc (admission_not_skip hundecided hcuts hstart) hundec.2.2 hopen

end Depth

variable (hsh : Sheltered ctx)

include hsh

theorem Sheltered.rederived (hnamed : ∀ key cut, p.registers key = some cut → ctx.Names key cut)
    (hc : c ∈ ctx.candidates) (hm : c.isMint = true ∨ c.enrolls ≠ none) : rederived ctx p c = .clear := by
  by_cases hne : c.hash = ctx.rootId
  · exact if_pos (.inl hne)
  unfold Account.rederived
  split
  · rfl
  · exact registerVerdict_clear.mpr fun key hkey cut hcut => hsh.uncut c hc hm hne key hkey cut (hnamed key cut hcut)

theorem Sheltered.state_eq (hnamed : ∀ key cut, p.registers key = some cut → ctx.Names key cut) :
    (rederiveCondemnation ctx p).state = p.state := by
  have hnil : (ctx.candidates.filter fun c => c.isMint ∧ (Account.rederived ctx p c).condemnation.isSome) = [] := by
    refine filter_eq_nil_iff.mpr fun c hc hcond => ?_
    obtain ⟨hm, hcond⟩ := of_decide_eq_true hcond
    rw [hsh.rederived hnamed hc (.inl hm)] at hcond
    cases hcond
  unfold rederiveCondemnation
  dsimp only
  rw [hnil]
  rfl

variable (hr : Rooted ctx)

include hr

theorem Sheltered.undecided (hs : Stratified ctx strata) (hc : c ∈ ctx.candidates)
    (hm : c.isMint = true ∨ c.enrolls ≠ none) (hv : s.1.verdicts.Refuses ctx.rootId)
    (hvc : s.1.verdicts.Refuses c.hash) (hold : s.1.Derived ctx) :
    (foldDepths ctx strata s).1.verdicts.Refuses c.hash := by
  induction strata generalizing s with
  | nil => exact hvc
  | cons x rest ih =>
    have hmembers := hs.members x mem_cons_self
    have huncut : ∀ b ∈ x.2, b.hash = c.hash → cutOpRegisters b = [] ∧ cutExtendRegister b = none := by
      intro b hb hbc
      obtain rfl := hr.distinct.eq_of_hash (hmembers hb) hc hbc
      unfold isMint enrolls at hm
      unfold cutOpRegisters cutExtendRegister
      cases hop : b.op <;> simp_all
    obtain ⟨hleaves, -⟩ := registerPass_refuses hmembers huncut hvc x.1
    rcases foldDepths_cons hs hv hold with ⟨p, hp, heq, -⟩ | ⟨p, hp, heq, hstands, hredo, hder, -⟩
    · rw [heq]
      exact (hleaves.1 p hp).1
    · rw [heq]
      have hnamed := fun key cut hcut => (hstands.named key cut hcut).elim (hold.named key cut) id
      refine ih hs.tail hredo (rederive_refuses (hleaves.2 p hp).verdicts fun b hb hbc => ?_) hder
      obtain rfl := hr.distinct.eq_of_hash hb hc hbc
      exact hsh.rederived hnamed hc hm

variable (hview : ∀ c ∈ ctx.candidates, ctx.view c.hash = some c.header) (hl : Ledgered ctx.incarnations led all)

include hview hl

theorem Guarded.depths (hs : Stratified ctx strata) (hv : s.1.verdicts.Refuses ctx.rootId) (hold : s.1.Derived ctx)
    (h : Guarded ctx.incarnations led done s.1.state) (hown : s.1.state.owners.keys ≠ [])
    (hsplit : all = done ++ judged strata)
    (hdepth : ∀ x ∈ strata, ∀ c ∈ x.2, ctx.incarnations.authorDepth c = some x.1 ∧ c.hash ≠ ctx.rootId)
    (hlive : (foldDepths ctx strata s).1.classification = .live)
    (hdec : ∀ c ∈ led, (foldDepths ctx strata s).1.verdicts.decided c.hash = none) :
    Guarded ctx.incarnations led all (foldDepths ctx strata s).1.state ∧
      (foldDepths ctx strata s).1.state.owners.keys ≠ [] := by
  induction strata generalizing done s with
  | nil =>
    rw [show judged [] = [] from rfl, append_nil] at hsplit
    exact ⟨hsplit ▸ h, hown⟩
  | cons x rest ih =>
    rcases foldDepths_cons hs hv hold with ⟨p, -, heq, -, -, hcontested⟩ | ⟨p, hp, heq, hstands, hredo, hder, -⟩
    · rw [heq] at hlive
      exact absurd hlive hcontested
    rw [heq] at hlive hdec ⊢
    have hnamed := fun key cut hcut => (hstands.named key cut hcut).elim (hold.named key cut) id
    have hstate := (hsh.state_eq hnamed).trans hstands.state_eq
    have hled : led ⊆ ctx.candidates := fun c => hl.candidate
    have hund : ∀ c ∈ led, c.hash ≠ ctx.rootId → (rederiveCondemnation ctx p).verdicts.decided c.hash = none :=
      fun c hc hne => foldDepths_undecided (s := afterRegisters ctx x.2 p s.2) hs.tail hredo hder hlive
        (hview c (hled hc)) (hled hc) hne (hdec c hc)
    obtain ⟨hx, hrest⟩ := forall_mem_cons.mp hdepth
    obtain ⟨m, hm, hopen⟩ := h.reserved hr hview hl hs hv hold hp hstands ⟨hder.clears, hder.parks, hder.named⟩
      (fun c hc => (hx c hc).1) (fun c hc => (hx c hc).2) hown
    rw [← hstate] at h hm
    have hsplit' : all = done ++ (sorted effectRank x.2 ++ judged rest) := hsplit
    have hdec' : ∀ c ∈ sorted effectRank x.2, c ∈ led → c.hash ≠ ctx.rootId →
      (rederiveCondemnation ctx p).verdicts.decided c.hash = none := fun c _ => hund c
    have hkept := Guarded.spares (s := ((rederiveCondemnation ctx p).state, s.2)) (sorted effectRank x.2) hl hredo h hsplit' hdec'
      (List.Subset.refl _) (fun c hc => (hx c ((mem_sorted _).mp hc)).2) hm hopen
    refine ih hs.tail hredo hder (Guarded.run (s := ((rederiveCondemnation ctx p).state, s.2)) (sorted effectRank x.2) hl hredo h hsplit' hdec')
      (fun hnil => ?_) (by simpa [judged] using hsplit) hrest hlive hdec
    have hmem := AList.mem_keys.mp (AList.lookup_isSome.mp (isSome_of_eq_some hkept))
    exact not_mem_nil (hnil ▸ hmem)

end Depths

/-! ## 4. The ledger of a sheltered account -/

section Reserved

variable (hr : Rooted ctx) (hl : Replayed ctx.incarnations led all)

include hr hl

theorem Replayed.opens (hsh : Sheltered ctx) (hm : m ∈ led) (hmm : m.isMint = true) (hc : c ∈ led)
    (hbefore : ctx.incarnations.judgedBefore c m = true) : c.closes m = false := by
  refine Bool.eq_false_iff.mpr fun hclose => ?_
  have hmem := hl.candidate hm
  obtain ⟨done, post, hsplit⟩ := append_of_mem (hl.sublist.subset hm)
  obtain ⟨pre, rest, hled⟩ := append_of_mem hm
  have hpre : c ∈ pre := (hl.before_iff hsplit hled).mpr
    ⟨hl.done_of_before hsplit (hl.sublist.subset hc) hbefore, hc⟩
  have hrem : c.removes = some m.subjectDevice := by
    have hsome := hsh.demoted c (hl.candidate hc) m hmem hbefore hclose
    unfold removes at hsome ⊢
    unfold closes at hclose
    split at hclose <;> simp_all
  obtain ⟨-, hopens, hfresh, -⟩ := hl.lawful pre m rest hled
  cases hop : m.op with
  | accountGenesis pubkey =>
    rw [hopens pubkey hop] at hpre
    cases hpre
  | deviceAdd d role =>
    exact (hfresh d (by simp [enrolls, hop]) c hpre).2 (by simpa [subjectDevice, hop] using hrem)
  | ownerPromote d =>
    obtain ⟨-, j, -, hj, -⟩ := judgedBefore_iff.mp hbefore
    cases hsh.undisputed m hmem hmm (by simp [hj]) (by simp [hop]) with
    | genesis hroot =>
      obtain ⟨pubkey, hgen⟩ := (hr.root m hmem hroot).op
      cases hop.symm.trans hgen
    | adds hop' => cases hop.symm.trans hop'
    | promotes hop' _ _ _ _ hfirst =>
      cases hop.symm.trans hop'
      exact (hfirst c (hl.candidate hc) hbefore).2.1 (by simpa [subjectDevice, hop] using hrem)
  | _ => simp [isMint, hop] at hmm

theorem Entered.complete (hv : v.Refuses ctx.rootId)
    (h : Entered ctx.incarnations v all led (all.foldl (effectStep ctx.incarnations v) (seeded ctx.rootId, o)))
    (hfree : ∀ c ∈ ctx.candidates, c.isMint = true ∨ c.enrolls ≠ none → v.decided c.hash = none)
    (hsplit : all = done ++ c :: post) (hund : Undisputed ctx.incarnations c) (hne : c.hash ≠ ctx.rootId)
    (hvouch : Vouched ctx.incarnations led done c) : c ∈ led := by
  have hlast : c ∈ all := hsplit ▸ by simp
  have hbeside := (beside_seeded ctx.incarnations led).run (s := (seeded ctx.rootId, o)) hl hv done
    (show all = [] ++ (done ++ c :: post) from hsplit) fun c _ hc _ => h.undecided c hc
  rw [nil_append] at hbeside
  have hkind : c.isMint = true ∨ c.enrolls ≠ none := by
    cases hund with
    | genesis hg => exact absurd hg hne
    | adds hop => exact .inr (by simp [enrolls, hop])
    | promotes hop => exact .inl (by simp [isMint, hop])
  have hstep := effectStep_of_effective (hfree c (hl.candidates hlast) hkind)
    (hbeside.effective hl hsplit hund hne hvouch)
  have heff : (all.foldl (effectStep ctx.incarnations v) (seeded ctx.rootId, o)).2.isEffective c.hash = true := by
    rw [hsplit, foldl_append, foldl_cons, hstep]
    refine List.foldlRecOn (motive := fun s : FoldState × Outcomes => s.2.isEffective c.hash = true) post _
      (by simp [isEffective_insert, Outcome.isEffective]) fun s hs b hb => ?_
    refine (isEffective_insert _).trans ((if_neg fun hcb => ?_).trans hs)
    obtain rfl := hr.distinct.eq_of_hash (hl.candidates hlast) (hl.candidates (hsplit ▸ by simp [hb])) hcb
    exact ((pairwise_cons.mp (pairwise_append.mp (hsplit ▸ hl.order)).2.1).1 c hb).1 rfl
  obtain ⟨e, he⟩ := Outcomes.isEffective_iff.mp heff
  exact mem_of_getElem? ((h.epoch c hlast e).mp he)

end Reserved

theorem founder_owned {x : Nat × List Candidate} (hr : Rooted ctx)
    (hl : Ledgered ctx.incarnations led all) (hv : v.Refuses ctx.rootId)
    (hg : genesis ∈ ctx.candidates) (hid : genesis.hash = ctx.rootId) (hx : genesis ∈ x.2)
    (hsplit : all = sorted effectRank x.2 ++ post)
    (hfirst : ∀ pre post, all = pre ++ genesis :: post →
      ∀ a ∈ pre, a.header.deviceFingerprint ≠ genesis.header.deviceFingerprint)
    (hdec : ∀ c ∈ led, c.hash ≠ ctx.rootId → v.decided c.hash = none)
    (hopen : ∀ c ∈ x.2, c.closes genesis = false) (o : Outcomes) :
    ((sorted effectRank x.2).foldl (effectStep ctx.incarnations v) (seeded ctx.rootId, o)).1.owners.lookup
      genesis.subjectDevice = some genesis.hash := by
  obtain ⟨pubkey, hop⟩ := (hr.root genesis hg hid).op
  obtain ⟨before, after, hsort⟩ := append_of_mem ((mem_sorted effectRank).mpr hx)
  rw [hsort, append_assoc, cons_append] at hsplit
  -- nothing acts before the genesis
  have hseed : (before.foldl (effectStep ctx.incarnations v) (seeded ctx.rootId, o)).1 = seeded ctx.rootId := by
    refine List.foldlRecOn (motive := fun s : FoldState × Outcomes => s.1 = seeded ctx.rootId) before _ rfl
      fun s hs c hc => ?_
    rcases @effectStep_cases _ v s.1 ctx.incarnations hv s.2 c with ⟨y, -, heq⟩ | ⟨hen, -⟩
    · rw [heq]
      exact hs
    · obtain ⟨id, mint, -, hmint, hdev, hlive⟩ := hen.author
      rw [hs] at hlive
      obtain rfl := Finset.mem_singleton.mp hlive
      obtain ⟨hmem, -, hhash⟩ := (find?_key_eq_some_iff hr.distinct).mp hmint
      obtain rfl := hr.distinct.eq_of_hash hmem hg (hhash.trans hid.symm)
      refine absurd ?_ (hfirst before _ hsplit c hc)
      simpa [subjectDevice, hop] using hdev.symm
  have hrun := (guarded_seeded ctx.incarnations led).run (s := (seeded ctx.rootId, o)) before hl hv
    (show all = [] ++ (before ++ genesis :: (after ++ post)) from hsplit) fun c _ => hdec c
  rw [hsort, foldl_append, foldl_cons]
  generalize before.foldl (effectStep ctx.incarnations v) (seeded ctx.rootId, o) = s at hseed hrun ⊢
  obtain ⟨state, o⟩ := s
  subst hseed
  have hguard := hrun.step hl hsplit hv fun hled hne => absurd hid hne
  have hseen : before ++ [genesis] ++ after ⊆ all := fun c hc => by
    simp only [hsplit, mem_append, mem_cons, not_mem_nil, or_false] at hc ⊢
    tauto
  refine hguard.spares after hl hv (show all = before ++ [genesis] ++ (after ++ post) by simpa using hsplit)
    (fun c _ => hdec c) hseen (fun c hc hroot => ?_) ?_ ?_
  · have hpair := (pairwise_cons.mp (pairwise_append.mp (hsplit ▸ hl.order)).2.1).1 c (mem_append_left _ hc)
    refine hpair.1 (hr.distinct.eq_of_hash hg (hl.candidates (hsplit ▸ by simp [hc])) (hid.trans hroot.symm))
  · rcases @effectStep_cases _ v (seeded ctx.rootId) ctx.incarnations hv o genesis with ⟨y, hy, heq⟩ | ⟨-, heq⟩
    · have heff := genesis_enacts hv hr hg hid o
      rw [heq] at heff
      cases (Outcomes.insert_self _ _ _).symm.trans heff
      cases hy
    · rw [heq]
      simp [enact, applyEffect, hop]
  · exact fun c hc _ _ _ => hopen c ((mem_sorted effectRank).mp (hsort ▸ by simp [hc]))

theorem first_depth (hr : Rooted ctx) (hg : genesis ∈ ctx.candidates) (hid : genesis.hash = ctx.rootId)
    (hfree : ex genesis.hash = none) : ∃ x rest, strataOf ex ctx.incarnations founder = x :: rest ∧ genesis ∈ x.2 ∧
      x.1 = 0 := by
  obtain ⟨hjudged, hzero⟩ := @genesis_judged ctx ex founder genesis hr hg hid hfree
  obtain ⟨x, hx, hgx⟩ := mem_judgedOrder hjudged
  have hxzero : x.1 = 0 := some.inj ((mem_strataOf hx hgx).2.2.symm.trans hzero)
  obtain ⟨pre, rest, hstrata⟩ := append_of_mem hx
  have hasc := @strata_ascending ctx ex founder
  rw [hstrata] at hasc
  obtain rfl : pre = [] := eq_nil_iff_forall_not_mem.mpr fun y hy => by
    have := (pairwise_append.mp hasc).2.2 y hy x mem_cons_self
    omega
  exact ⟨x, rest, hstrata, hgx, hxzero⟩

theorem Entered.ledgered (hr : Rooted ctx) (hsh : Sheltered ctx) (hv : v.Refuses ctx.rootId)
    (hfree : ∀ c ∈ ctx.candidates, c.isMint = true ∨ c.enrolls ≠ none → v.decided c.hash = none)
    (h : Entered ctx.incarnations v (judgedOrder ex ctx.incarnations founder) led
      ((judgedOrder ex ctx.incarnations founder).foldl (effectStep ctx.incarnations v) (seeded ctx.rootId, o))) :
    Ledgered ctx.incarnations led (judgedOrder ex ctx.incarnations founder) where
  toReplayed := hr.replayed h.lawful h.sublist
  rooted := h.rooted
  undisputed c hc hm hop := by
    obtain ⟨y, hy, hcy⟩ := mem_judgedOrder hc
    exact hsh.undisputed c (judgedOrder_subset hc) hm (by simp [(mem_strataOf hy hcy).2.2]) hop
  complete done c post hsplit hund hne :=
    h.complete hr (hr.replayed h.lawful h.sublist) hv hfree hsplit hund hne
  opens m hm hmm c hc := (hr.replayed h.lawful h.sublist).opens hr hsh hm hmm hc

theorem owner_reserved (hsh : Sheltered ctx) (hr : Rooted ctx)
    (hview : ∀ c ∈ ctx.candidates, ctx.view c.hash = some c.header) (hg : genesis ∈ ctx.candidates)
    (hid : genesis.hash = ctx.rootId) (hfree : ex genesis.hash = none)
    (hfounder : genesis.header.deviceFingerprint = founder) (o o' : Outcomes) {final : DepthPass × Outcomes}
    (hfinal : foldDepths ctx (strataOf ex ctx.incarnations founder) ({ state := seeded ctx.rootId }, o) = final)
    (hlive : final.1.classification = .live)
    (h : Entered ctx.incarnations final.1.verdicts (judgedOrder ex ctx.incarnations founder) led
      ((judgedOrder ex ctx.incarnations founder).foldl (effectStep ctx.incarnations final.1.verdicts)
        (seeded ctx.rootId, o'))) :
    ∃ m ∈ led, m.isMint = true ∧ ∀ c ∈ led, c.closes m = false := by
  have hstrat := @Rooted.stratified ctx ex founder hr
  obtain ⟨x, rest, hstrata, hgx, hxzero⟩ := @first_depth ctx ex founder genesis hr hg hid hfree
  have hfirst := fun pre post heq => @genesis_first ctx ex founder genesis pre post hr hg hid hfree hfounder heq
  have hasc := @strata_ascending ctx ex founder
  have hdepth := fun y hy c hc => @mem_strataOf c ex ctx.incarnations founder y hy hc
  have hold := derived_start ctx (seeded ctx.rootId)
  have hvfinal := hfinal ▸ (foldDepths_rule (s := ({ state := seeded ctx.rootId }, o)) (fun _ => True)
    (fun _ _ _ _ => trivial) hstrat (fun _ _ _ _ _ _ _ _ => trivial) (refuses_start _) hold trivial).1
  have hspared : ∀ c ∈ ctx.candidates, c.isMint = true ∨ c.enrolls ≠ none → final.1.verdicts.decided c.hash = none :=
    fun c hc hm => hfinal ▸ (hsh.undecided (s := ({ state := seeded ctx.rootId }, o)) hr hstrat hc hm (refuses_start _)
      (refuses_start _) hold).decided_genesis
  have hl := h.ledgered hr hsh hvfinal hspared
  unfold judgedOrder at hl h hfirst
  rw [hstrata] at hl h hfirst hfinal hstrat hasc hdepth
  subst hfinal
  rcases foldDepths_cons hstrat (refuses_start _) hold (s := ({ state := seeded ctx.rootId }, o)) with
    ⟨p, -, heq, -, -, hcontested⟩ | ⟨p, hp, heq, hstands, hredo, hder, -⟩
  · rw [heq] at hlive
    exact absurd hlive hcontested
  rw [heq] at hlive h
  have hled : led ⊆ ctx.candidates := fun c => hl.candidate
  have hund : ∀ c ∈ led, c.hash ≠ ctx.rootId → (rederiveCondemnation ctx p).verdicts.decided c.hash = none :=
    fun c hc hne => foldDepths_undecided (s := afterRegisters ctx x.2 p o) hstrat.tail hredo hder hlive
      (hview c (hled hc)) (hled hc) hne (h.undecided c hc)
  have hstate : (rederiveCondemnation ctx p).state = seeded ctx.rootId :=
    (hsh.state_eq fun key cut hcut => (hstands.named key cut hcut).elim (hold.named key cut) id).trans hstands.state_eq
  have hown := founder_owned hr hl hredo hg hid hgx
    (show judged (x :: rest) = sorted effectRank x.2 ++ judged rest from rfl) hfirst hund (fun c hc =>
    hsh.founder c (hdepth x mem_cons_self c hc).1 (hxzero ▸ (hdepth x mem_cons_self c hc).2.2) genesis hg hid) o
  have hguard := (guarded_seeded ctx.incarnations led).run (s := (seeded ctx.rootId, o)) (sorted effectRank x.2)
    hl hredo (show judged (x :: rest) = [] ++ (sorted effectRank x.2 ++ judged rest) from rfl) fun c _ => hund c
  rw [← hstate] at hown hguard
  have hmem := AList.mem_keys.mp (AList.lookup_isSome.mp (isSome_of_eq_some hown))
  have hlater : ∀ y ∈ rest, ∀ c ∈ y.2, ctx.incarnations.authorDepth c = some y.1 ∧ c.hash ≠ ctx.rootId := by
    intro y hy c hc
    obtain ⟨hcc, -, hcy⟩ := hdepth y (mem_cons_of_mem x hy) c hc
    refine ⟨hcy, fun hroot => ?_⟩
    obtain rfl := hr.distinct.eq_of_hash hcc hg (hroot.trans hid.symm)
    have hlt := (pairwise_cons.mp hasc).1 y hy
    have := some.inj (hcy.symm.trans (hdepth x mem_cons_self c hgx).2.2)
    omega
  obtain ⟨hend, hnonempty⟩ := hguard.depths (s := afterRegisters ctx x.2 p o) hsh hr hview hl hstrat.tail hredo hder
    (fun hnil => not_mem_nil (hnil ▸ hmem)) rfl hlater hlive h.undecided
  obtain ⟨d, hd⟩ := exists_mem_of_ne_nil _ hnonempty
  obtain ⟨id, hid⟩ := isSome_iff_exists.mp (AList.lookup_isSome.mpr (AList.mem_keys.mpr hd))
  obtain ⟨m, -, hm, hmm, -, -, hopen⟩ := hend.owned d id hid
  exact ⟨m, hm, hmm, fun c hc => hopen c (hl.sublist.subset hc) hc⟩

end RagRat.Account
