/-
  File:      RagRat/Account/Verdicts.lean
  Subject:   WHAT THE STAGES OF A PASS MAY SAY of an entry.

  * `Outcome.isRefusal` -- an outcome that is neither effective nor the parking of an entry authored ahead.
  * `registerPass_refuses` -- all the register pass says is refusals, and it spares an owner.
  * `effectStep_cases` -- the one place an entry becomes effective: its author is live and the state admits it.
  * `foldDepths_rule` -- what the effects preserve holds after the depths, and the verdicts the registers leave
    behind are refusals.
-/
import RagRat.Account.CutOrder
import RagRat.Account.Fold

namespace RagRat.Account

open List
open Lib.Register Lib.Keyed
open Candidate

variable {r : ParkReason} {g h k : EntryHash} {v : FoldVerdicts} {o x : Outcome} {ctx : FoldContext}
  {pass old p mid : DepthPass} {view : HeaderView} {state : FoldState} {c : Candidate}
  {staged registers : Registers} {inc : Incarnations} {admitted : List AdmittedCut}
  {members : List Candidate} {α : Type} {f : α → DepthPass}

/-- The incarnation the genesis mints. -/
abbrev FoldContext.rootId (ctx : FoldContext) : OwnerId := ctx.incarnations.genesisOwnerId

/-! ## 1. Refusals -/

/-- A verdict against an entry, other than that it was authored ahead. -/
def Outcome.isRefusal : Outcome → Bool
  | .effective _ | .parked .authLenAhead => false
  | _ => true

/-- The registers' verdicts are refusals, and none is about the genesis `g`. -/
structure FoldVerdicts.Refuses (g : EntryHash) (v : FoldVerdicts) : Prop where
  parked : ∀ h, v.parked h ≠ some .authLenAhead
  cut : ∀ h o, v.cutVerdicts h = some o → o.isRefusal = true ∧ h ≠ g
  spared : v.condemned g = none ∧ v.parked g = none

open FoldVerdicts

theorem Outcome.parked_isRefusal (h : r ≠ .authLenAhead) : (Outcome.parked r).isRefusal = true := by
  cases r with
  | authLenAhead => exact absurd rfl h
  | _ => rfl

theorem FoldVerdicts.Refuses.decided (hv : v.Refuses g) (hdec : v.decided h = some o) :
    o.isRefusal = true := by
  simp only [FoldVerdicts.decided, Option.or_eq_some_iff, Option.map_eq_some_iff] at hdec
  rcases hdec with ⟨r, -, rfl⟩ | ⟨-, ⟨r, hr, rfl⟩ | ⟨-, hcut⟩⟩
  · rfl
  · exact Outcome.parked_isRefusal fun heq => hv.parked h (heq ▸ hr)
  · exact (hv.cut h o hcut).1

theorem FoldVerdicts.Refuses.decided_genesis (hv : v.Refuses g) : v.decided g = none := by
  unfold FoldVerdicts.decided
  rw [hv.spared.1, hv.spared.2]
  cases hcut : v.cutVerdicts g with
  | none => rfl
  | some o => exact absurd rfl (hv.cut g o hcut).2

theorem refuses_start (g : EntryHash) : FoldVerdicts.Refuses g {} :=
  ⟨nofun, nofun, rfl, rfl⟩

/-! ## 2. The register pass -/

/-- A candidate puts the cut under the key, and names no watermark of another chain. -/
def FoldContext.Names (ctx : FoldContext) (key : RegisterKey) (cut : Cut) : Prop :=
  ∃ c ∈ ctx.candidates, ∃ chain, ((key, cut, chain) ∈ cutOpRegisters c ∨ cutExtendRegister c = some (key, cut, chain)) ∧
    validateCutTarget cut chain ctx.view ≠ .mismatch

/-- No cut, verdict or condemnation is lost; new cuts are the candidates'. -/
structure DepthPass.Keeps (pass : DepthPass) (ctx : FoldContext) (old : DepthPass) : Prop where
  holds : ∀ key cut, old.registers.Holds ctx.view key cut → pass.registers.Holds ctx.view key cut
  named : ∀ key cut, pass.registers key = some cut → old.registers key = some cut ∨ ctx.Names key cut
  judged : ∀ h, old.verdicts.cutVerdicts h ≠ none → pass.verdicts.cutVerdicts h ≠ none
  condemned : ∀ h, old.verdicts.condemned h ≠ none → pass.verdicts.condemned h ≠ none

open DepthPass

theorem DepthPass.Keeps.refl (pass : DepthPass) : pass.Keeps ctx pass :=
  ⟨fun _ _ h => h, fun _ _ => .inl, fun _ h => h, fun _ h => h⟩

theorem DepthPass.Keeps.trans (h : pass.Keeps ctx mid) (h' : mid.Keeps ctx old) : pass.Keeps ctx old where
  holds k c hk := h.holds k c (h'.holds k c hk)
  named k c hk := (h.named k c hk).elim (h'.named k c) .inr
  judged k hk := h.judged k (h'.judged k hk)
  condemned k hk := h.condemned k (h'.condemned k hk)

/-- What the stages of a pass come to: the state is the old one, and the verdicts are refusals. -/
structure DepthPass.Stands (pass : DepthPass) (ctx : FoldContext) (g : EntryHash) (old : DepthPass) : Prop
    extends pass.Keeps ctx old where
  verdicts : pass.verdicts.Refuses g
  state_eq : pass.state = old.state

theorem DepthPass.Stands.refl (h : pass.verdicts.Refuses g) : pass.Stands ctx g pass :=
  ⟨.refl pass, h, rfl⟩

theorem DepthPass.Stands.trans (h : pass.Stands ctx g mid) (h' : mid.Stands ctx g old) : pass.Stands ctx g old :=
  ⟨h.toKeeps.trans h'.toKeeps, h.verdicts, h.state_eq.trans h'.state_eq⟩

theorem refuses_setCutVerdicts (hv : pass.Stands ctx g old) (members : List Candidate)
    {verdict : Candidate → Option Outcome}
    (h : ∀ c ∈ members, ∀ o, verdict c = some o → o.isRefusal = true ∧ c.hash ≠ g) :
    (pass.setCutVerdicts members verdict).Stands ctx g old := by
  refine ⟨⟨hv.holds, hv.named, fun k hk => insertAll_ne_none (.inl (hv.judged k hk)), hv.condemned⟩,
    ⟨hv.verdicts.parked, fun k o ho => ?_, hv.verdicts.spared⟩, hv.state_eq⟩
  rcases insertAll_cases ho with hold | ⟨c, hc, rfl, hval⟩
  · exact hv.verdicts.cut k o hold
  · exact h c hc o hval

theorem refuses_setCutVerdict (hv : pass.Stands ctx g old) (hk : k ≠ g) (hx : x.isRefusal = true) :
    (pass.setCutVerdict k x).Stands ctx g old := by
  refine ⟨⟨hv.holds, hv.named, fun k' hk' => ?_, hv.condemned⟩, ⟨hv.verdicts.parked, fun k' o ho => ?_, hv.verdicts.spared⟩,
    hv.state_eq⟩
  · simp only [setCutVerdict, Function.update_apply]
    split <;> simp [hv.judged k' hk']
  rcases eq_or_ne k' k with rfl | hne
  · simp only [setCutVerdict, Function.update_self] at ho
    cases ho
    exact ⟨hx, hk⟩
  · simp only [setCutVerdict, Function.update_of_ne hne] at ho
    exact hv.verdicts.cut k' o ho

theorem admission_refuses (h : (admission ctx pass c).outcome = some o) :
    o.isRefusal = true ∧ cutOpRegisters c ≠ [] := by
  have hbind : ∀ x, demoteBinding ctx.incarnations c.op = some x → x.isRefusal = true := by
    intro x hx
    unfold demoteBinding at hx
    repeat' split at hx
    all_goals cases hx
    all_goals rfl
  unfold admission at h
  repeat' split at h
  all_goals simp only [Admission.outcome] at h
  all_goals cases h
  · exact ⟨hbind _ ‹_›, ‹_›⟩
  · exact ⟨rfl, ‹_›⟩

theorem admission_not_skip (hdec : pass.verdicts.decided c.hash = none) (hcut : cutOpRegisters c ≠ [])
    (hlive : authorityStatus c ctx.incarnations pass.state pass.verdicts.parked = .live) :
    admission ctx pass c ≠ .skip := by
  simp only [FoldVerdicts.decided, Option.or_eq_none_iff, Option.map_eq_none_iff] at hdec
  intro hskip
  unfold admission at hskip
  rw [if_neg (by simp [DepthPass.stopped, hdec]), if_neg hcut, if_neg (not_not.mpr hlive)] at hskip
  repeat' split at hskip
  all_goals cases hskip

theorem admission_admitted {a : AdmittedCut} (h : (admission ctx pass c).admitted c = some a) :
    a = ⟨c, (cutOpRegisters c).map fun r => (r.1, r.2.1)⟩ ∧ cutOpRegisters c ≠ [] ∧
      ∀ r ∈ cutOpRegisters c, validateCutTarget r.2.1 r.2.2 ctx.view ≠ .mismatch := by
  unfold admission at h
  repeat' split at h
  all_goals simp only [Admission.admitted] at h
  all_goals cases h
  rename_i hvalid
  exact ⟨rfl, ‹_›, fun r hr heq => hvalid (List.any_eq_true.mpr ⟨r, hr, decide_eq_true heq⟩)⟩

theorem extendAdmission_refuses (h : (extendAdmission ctx pass staged c).outcome = some o) :
    o.isRefusal = true ∧ cutExtendRegister c ≠ none := by
  unfold extendAdmission at h
  repeat' split at h
  all_goals simp only [ExtendAdmission.outcome] at h
  all_goals cases h
  all_goals exact ⟨rfl, by simp [*]⟩

theorem extendAdmission_extension {e : CutExtension}
    (h : (extendAdmission ctx pass staged c).extension c = some e) :
    e.op = c ∧ ∃ chain, cutExtendRegister c = some (e.key, e.cut, chain) ∧
      validateCutTarget e.cut chain ctx.view ≠ .mismatch := by
  unfold extendAdmission at h
  repeat' split at h
  all_goals simp only [ExtendAdmission.extension] at h
  all_goals cases h
  exact ⟨rfl, _, ‹_›, ‹_›⟩

/-- Both ways out of a stage leave the state and refusals; the one ends the live fold. -/
def Leaves {α : Type} (ctx : FoldContext) (g : EntryHash) (old : DepthPass) (f : α → DepthPass)
    (r : Except DepthPass α) : Prop :=
  (∀ p, r = .error p → p.verdicts.Refuses g ∧ p.state = old.state ∧ p.classification ≠ .live) ∧
    ∀ a, r = .ok a → (f a).Stands ctx g old

theorem leaves_error
    (h : p.verdicts.Refuses g ∧ p.state = old.state ∧ p.classification ≠ .live) :
    Leaves ctx g old f (.error p) :=
  ⟨fun _ hp => by cases hp; exact h, nofun⟩

theorem leaves_ok {a : α} (h : (f a).Stands ctx g old) : Leaves ctx g old f (.ok a) :=
  ⟨nofun, fun _ ha => by cases ha; exact h⟩

theorem Leaves.trans {r : Except DepthPass α} (h : Leaves ctx g pass f r)
    (hv : pass.Stands ctx g old) : Leaves ctx g old f r :=
  ⟨fun p hp => ⟨(h.1 p hp).1, (h.1 p hp).2.1.trans hv.state_eq, (h.1 p hp).2.2⟩, fun a ha => (h.2 a ha).trans hv⟩

theorem stagedRegisters_keeps (admitted : List AdmittedCut) {key : RegisterKey} {cut : Cut}
    (h : registers.Holds view key cut) :
    (stagedRegisters view registers admitted).Holds view key cut :=
  List.foldlRecOn (motive := fun r : Registers => r.Holds view key cut) admitted _ h
    fun _ hr _ _ => joinAll_keeps _ hr

theorem stagedRegisters_named {registers : Registers} (hnamed : ∀ a ∈ admitted, ∀ kc ∈ a.registers, ctx.Names kc.1 kc.2)
    {key : RegisterKey} {cut : Cut} (h : stagedRegisters ctx.view registers admitted key = some cut) :
    registers key = some cut ∨ ctx.Names key cut := by
  refine List.foldlRecOn (motive := fun r : Registers => ∀ key cut, r key = some cut →
    registers key = some cut ∨ ctx.Names key cut) admitted _ (fun _ _ => .inl) (fun r hr a ha => ?_) key cut h
  exact List.foldlRecOn (motive := fun r : Registers => ∀ key cut, r key = some cut →
    registers key = some cut ∨ ctx.Names key cut) a.registers _ hr
    fun r hr kc hkc _ _ => joinRegister_values (.inr (hnamed a ha kc hkc)) hr

/-- An admitted cut has a verdict, or the staged registers hold it. -/
structure Staged (view : HeaderView) (admitted : List AdmittedCut) (working : Registers) (pass : DepthPass)
    (x : DepthPass × List AdmittedCut) : Prop where
  kept : x.2 ⊆ admitted
  registers_eq : x.1.registers = pass.registers
  installs : ∀ a ∈ admitted, (a.registers.map Prod.fst).Nodup → x.1.verdicts.cutVerdicts a.hash ≠ none ∨
    a ∈ x.2 ∧ ∀ kc ∈ a.registers, (stagedRegisters view working x.2).Holds view kc.1 kc.2

theorem stageJoins_refuses (depth : Nat) (hne : ∀ a ∈ admitted, a.hash ≠ g) (working : Registers)
    (hv : pass.Stands ctx g old) :
    Leaves ctx g old Prod.fst (stageJoins ctx.view depth admitted working pass) ∧
      ∀ x, stageJoins ctx.view depth admitted working pass = .ok x → Staged ctx.view admitted working pass x := by
  induction admitted generalizing working pass old with
  | nil =>
    refine ⟨leaves_ok hv, fun x hx => ?_⟩
    cases hx
    exact ⟨List.Subset.refl _, rfl, fun a ha => absurd ha not_mem_nil⟩
  | cons a rest ih =>
    obtain ⟨ha, hrest⟩ := forall_mem_cons.mp hne
    unfold stageJoins
    dsimp only
    split
    · exact ⟨leaves_error ⟨hv.verdicts, hv.state_eq, nofun⟩, nofun⟩
    rename_i hcontested
    split
    · have hset := refuses_setCutVerdict hv ha (x := .parked .unknownCutTarget) rfl
      have hrec := ih hrest working hset
      refine ⟨hrec.1, fun x hx => ?_⟩
      obtain ⟨hkept, hreg, hinst⟩ := hrec.2 x hx
      refine ⟨List.Subset.trans hkept (subset_cons_self a rest), hreg, forall_mem_cons.mpr ⟨fun _ => .inl ?_, hinst⟩⟩
      refine ((ih hrest working (.refl hset.verdicts)).1.2 x hx).judged _ ?_
      simp [setCutVerdict]
    rename_i hparked
    have hrec := ih hrest (joinAll working a.registers ctx.view) hv
    cases hr : stageJoins ctx.view depth rest (joinAll working a.registers ctx.view) pass with
    | error p => exact ⟨leaves_error (hrec.1.1 p hr), nofun⟩
    | ok x =>
      refine ⟨leaves_ok (hrec.1.2 x hr), fun y hy => ?_⟩
      cases hy
      obtain ⟨hkept, hreg, hinst⟩ := hrec.2 x hr
      refine ⟨cons_subset_cons a hkept, hreg, forall_mem_cons.mpr ⟨fun hnd => .inr ⟨mem_cons_self, fun kc hkc => ?_⟩,
        fun b hb hnd => (hinst b hb hnd).imp_right fun h => ⟨mem_cons_of_mem a h.1, h.2⟩⟩⟩
      refine stagedRegisters_keeps x.2 (joinAll_holds hnd (fun kc hkc => ?_) kc hkc)
      have hmem := mem_map_of_mem (f := fun kc => joinRegisterPeek working kc.1 kc.2 ctx.view) hkc
      cases hp : joinRegisterPeek working kc.1 kc.2 ctx.view with
      | applied => rfl
      | contested => exact absurd (hp ▸ hmem) hcontested
      | parked => exact absurd (hp ▸ hmem) hparked

theorem rejectSoleOwnerCuts_refuses (hne : ∀ a ∈ admitted, a.hash ≠ g)
    (hv : pass.verdicts.Refuses g) :
    (rejectSoleOwnerCuts pass admitted).1.Stands ctx g pass ∧ (rejectSoleOwnerCuts pass admitted).2 ⊆ admitted ∧
      ∀ a ∈ admitted, a ∈ (rejectSoleOwnerCuts pass admitted).2 ∨
        (rejectSoleOwnerCuts pass admitted).1.verdicts.cutVerdicts a.hash ≠ none := by
  unfold rejectSoleOwnerCuts
  split
  · exact ⟨.refl hv, List.Subset.refl _, fun a ha => .inl ha⟩
  refine ⟨refuses_setCutVerdicts (.refl hv) _ fun c hc o ho => ?_, List.filter_subset_self _, fun a ha => ?_⟩
  · cases ho
    obtain ⟨a, ha, rfl⟩ := mem_map.mp hc
    exact ⟨rfl, hne a (mem_of_mem_filter ha)⟩
  · by_cases hclose : closesOwner pass.state.owners a = true
    · exact .inr (insertAll_ne_none (.inr ⟨a.op, mem_map_of_mem (mem_filter.mpr ⟨ha, hclose⟩), rfl, nofun⟩))
    · exact .inl (mem_filter.mpr ⟨ha, by simpa using hclose⟩)

theorem reserveOwner_refuses (hne : ∀ a ∈ admitted, a.hash ≠ g) (surviving : Owners)
    (hv : pass.Stands ctx g old) : (reserveOwner admitted surviving pass).1.Stands ctx g old ∧
      (reserveOwner admitted surviving pass).1.registers = pass.registers ∧
      ∀ a ∈ admitted, a ∈ (reserveOwner admitted surviving pass).2 ∨
        (reserveOwner admitted surviving pass).1.verdicts.cutVerdicts a.hash ≠ none := by
  induction admitted generalizing surviving pass old with
  | nil => exact ⟨hv, rfl, fun a ha => absurd ha not_mem_nil⟩
  | cons a rest ih =>
    obtain ⟨ha, hrest⟩ := forall_mem_cons.mp hne
    have hkept : ∀ s, (reserveOwner rest s pass).1.Stands ctx g old ∧
        (reserveOwner rest s pass).1.registers = pass.registers ∧ ∀ b ∈ a :: rest,
          b ∈ a :: (reserveOwner rest s pass).2 ∨ (reserveOwner rest s pass).1.verdicts.cutVerdicts b.hash ≠ none :=
      fun s => ⟨(ih hrest s hv).1, (ih hrest s hv).2.1, forall_mem_cons.mpr ⟨.inl mem_cons_self, fun b hb =>
        ((ih hrest s hv).2.2 b hb).imp_left (mem_cons_of_mem a)⟩⟩
    unfold reserveOwner
    split
    · split
      · have hset := refuses_setCutVerdict hv ha (x := .rejected .lastOwner) rfl
        obtain ⟨hstands, hreg, hall⟩ := ih hrest surviving hset
        refine ⟨hstands, hreg, forall_mem_cons.mpr ⟨.inr ?_, hall⟩⟩
        refine (ih hrest surviving (.refl hset.verdicts)).1.judged _ ?_
        simp [setCutVerdict]
      · exact hkept _
    · exact hkept surviving

/-! ### What the reserve keeps -/

section Reserve

variable {surviving : Owners} {a b : AdmittedCut} {key : RegisterKey}

theorem closesOpen_erase {op : AccountOp} {d e : DeviceFingerprint} :
    closesOpenIncarnation op (surviving.erase e) = some d ↔ closesOpenIncarnation op surviving = some d ∧ d ≠ e := by
  cases op with
  | deviceRemove d' _ _ _ | ownerDemote d' _ _ _ =>
    rcases eq_or_ne d' e with rfl | hne
    · simp [closesOpenIncarnation]
      try (rintro _ rfl; rfl)
    · simp only [closesOpenIncarnation, AList.lookup_erase_ne hne]
      split <;> simp_all
      try (rintro rfl; exact hne)
  | _ => simp [closesOpenIncarnation]

theorem closesOpen_isSome {op : AccountOp} {d : DeviceFingerprint}
    (h : closesOpenIncarnation op surviving = some d) : (surviving.lookup d).isSome := by
  unfold closesOpenIncarnation at h
  repeat' split at h
  all_goals cases h
  · assumption
  · simp [*]

theorem mem_reserveOwner (h : closesOpenIncarnation a.op.op surviving = none) (ha : a ∈ admitted) :
    a ∈ (reserveOwner admitted surviving pass).2 := by
  induction admitted generalizing surviving pass with
  | nil => exact ha
  | cons b rest ih =>
    have hrest : ∀ s p, closesOpenIncarnation a.op.op s = none → a ∈ rest → a ∈ (reserveOwner rest s p).2 :=
      fun s p hs hr => ih hs hr
    unfold reserveOwner
    rcases mem_cons.mp ha with rfl | hmem
    · simp [h]
    split
    · split
      · exact hrest _ _ h hmem
      · refine mem_cons_of_mem _ (hrest _ _ (Option.eq_none_iff_forall_ne_some.mpr fun d hd => ?_) hmem)
        rw [(closesOpen_erase.mp hd).1] at h
        cases h
    · exact mem_cons_of_mem _ (hrest _ _ h hmem)

theorem reserveOwner_subset : (reserveOwner admitted surviving pass).2 ⊆ admitted := by
  induction admitted generalizing surviving pass with
  | nil => exact List.Subset.refl _
  | cons b rest ih =>
    unfold reserveOwner
    split
    · split
      · exact List.Subset.trans ih (subset_cons_self b rest)
      · exact cons_subset_cons b ih
    · exact cons_subset_cons b ih

theorem closesOpen_of_reserveOwner (hone : surviving.keys.length = 1)
    (ha : a ∈ (reserveOwner admitted surviving pass).2) : closesOpenIncarnation a.op.op surviving = none := by
  induction admitted generalizing pass with
  | nil => cases ha
  | cons b rest ih =>
    unfold reserveOwner at ha
    split at ha
    · rw [if_pos hone] at ha
      exact ih ha
    · rename_i hclose
      rcases mem_cons.mp ha with rfl | ha
      · exact hclose
      · exact ih ha

/-- **An owner is spared**: of the owners there are, one is closed by none of the cuts that are kept. -/
theorem reserveOwner_spares (hown : surviving.keys ≠ []) : ∃ d, (surviving.lookup d).isSome ∧
    ∀ a ∈ (reserveOwner admitted surviving pass).2, closesOpenIncarnation a.op.op surviving ≠ some d := by
  induction admitted generalizing surviving pass with
  | nil =>
    obtain ⟨d, hd⟩ := exists_mem_of_ne_nil _ hown
    exact ⟨d, AList.lookup_isSome.mpr hd, fun a ha => absurd ha not_mem_nil⟩
  | cons b rest ih =>
    unfold reserveOwner
    split
    · rename_i e he
      split
      · exact ih hown
      · rename_i hone
        have hkeys : (surviving.erase e).keys ≠ [] := by
          intro hnil
          have hlen := surviving.keys.length_erase_of_mem (AList.mem_keys.mp (AList.lookup_isSome.mp (closesOpen_isSome he)))
          rw [AList.keys_erase] at hnil
          rw [hnil, length_nil] at hlen
          have := length_pos_iff.mpr hown
          omega
        obtain ⟨d, hd, hspared⟩ := @ih pass (surviving.erase e) hkeys
        have hne : d ≠ e := by
          rintro rfl
          simp at hd
        rw [AList.lookup_erase_ne hne] at hd
        refine ⟨d, hd, forall_mem_cons.mpr ⟨fun h => hne (Option.some.inj (h.symm.trans he)), fun a ha h => ?_⟩⟩
        exact hspared a ha (closesOpen_erase.mpr ⟨h, hne⟩)
    · rename_i hnone
      obtain ⟨d, hd, hspared⟩ := @ih pass surviving hown
      exact ⟨d, hd, forall_mem_cons.mpr ⟨by simp [hnone], hspared⟩⟩

/-- The register is one of those the cut raises. -/
def AdmittedCut.raises (key : RegisterKey) (a : AdmittedCut) : Bool := key ∈ a.registers.map Prod.fst

/-- **Of the cuts that raise one register all are kept, or none**: they close the same owner. -/
theorem reserveOwner_raises (hsame : ∀ a ∈ admitted, ∀ b ∈ admitted, a.raises key = true → b.raises key = true →
      ∀ s, closesOpenIncarnation a.op.op s = closesOpenIncarnation b.op.op s)
    (surviving : Owners) (pass : DepthPass) :
    (reserveOwner admitted surviving pass).2.filter (AdmittedCut.raises key) = admitted.filter (AdmittedCut.raises key) ∨
      (reserveOwner admitted surviving pass).2.filter (AdmittedCut.raises key) = [] := by
  induction admitted generalizing surviving pass with
  | nil => exact .inl rfl
  | cons a rest ih =>
    have ih := fun s p => ih (fun b hb c hc => hsame b (mem_cons_of_mem a hb) c (mem_cons_of_mem a hc)) s p
    -- a head that is kept leaves nobody for the others to close
    have hkept : ∀ s, closesOpenIncarnation a.op.op s = none →
        (a :: (reserveOwner rest s pass).2).filter (AdmittedCut.raises key) =
          (a :: rest).filter (AdmittedCut.raises key) ∨
        (a :: (reserveOwner rest s pass).2).filter (AdmittedCut.raises key) = [] := by
      intro s hs
      by_cases hak : a.raises key = true
      · rw [filter_cons_of_pos hak, filter_cons_of_pos hak]
        refine .inl (congrArg (a :: ·) ((ih s pass).elim id fun hnil => ?_))
        rw [hnil, eq_comm, filter_eq_nil_iff]
        intro b hb hbk
        have hclose := (hsame b (mem_cons_of_mem a hb) a mem_cons_self hbk hak s).trans hs
        exact filter_eq_nil_iff.mp hnil b (mem_reserveOwner hclose hb) hbk
      · rw [filter_cons_of_neg hak, filter_cons_of_neg hak]
        exact ih s pass
    unfold reserveOwner
    split
    · rename_i d hd
      split
      · rename_i hone
        by_cases hak : a.raises key = true
        · refine .inr (filter_eq_nil_iff.mpr fun b hb hbk => ?_)
          have hclose := hsame b (mem_cons_of_mem a (reserveOwner_subset hb)) a mem_cons_self hbk hak surviving
          rw [closesOpen_of_reserveOwner hone hb, hd] at hclose
          cases hclose
        · rw [filter_cons_of_neg hak]
          exact ih surviving _
      · refine hkept (surviving.erase d) (Option.eq_none_iff_forall_ne_some.mpr fun e he => ?_)
        obtain ⟨hsome, hne⟩ := closesOpen_erase.mp he
        exact hne (Option.some.inj (hsome.symm.trans hd))
    · exact hkept surviving ‹_›

theorem stagedRegisters_filter {registers registers' : Registers} (h : registers key = registers' key) :
    stagedRegisters view registers (admitted.filter (AdmittedCut.raises key)) key =
      stagedRegisters view registers' admitted key := by
  induction admitted generalizing registers registers' with
  | nil => exact h
  | cons a rest ih =>
    by_cases hak : a.raises key = true
    · rw [filter_cons_of_pos hak]
      exact ih (joinAll_congr a.registers h)
    · rw [filter_cons_of_neg hak]
      exact ih (h.trans (joinAll_of_not_mem fun kc hkc heq =>
        hak (decide_eq_true (mem_map.mpr ⟨kc, hkc, heq.symm⟩))).symm)

theorem closesOpen_of_key {c c' : Candidate} (h : key ∈ (cutOpRegisters c).map Prod.fst)
    (h' : key ∈ (cutOpRegisters c').map Prod.fst) (s : Owners) :
    closesOpenIncarnation c.op s = closesOpenIncarnation c'.op s := by
  unfold cutOpRegisters at h h'
  split at h <;> split at h' <;> simp only [map_cons, map_nil, mem_cons, not_mem_nil, or_false] at h h'
  all_goals rcases h with rfl | rfl <;> simp_all [closesOpenIncarnation, controlLog, secretsLog]

theorem stagedRegisters_reserve (hsame : ∀ a ∈ admitted, ∀ b ∈ admitted, a.raises key = true → b.raises key = true →
      ∀ s, closesOpenIncarnation a.op.op s = closesOpenIncarnation b.op.op s)
    (ha : a ∈ (reserveOwner admitted surviving pass).2) (hkey : a.raises key = true) (registers : Registers) :
    stagedRegisters view registers (reserveOwner admitted surviving pass).2 key =
      stagedRegisters view registers admitted key := by
  rw [← stagedRegisters_filter rfl, (reserveOwner_raises hsame surviving pass).resolve_right fun hnil =>
    filter_eq_nil_iff.mp hnil a ha hkey, stagedRegisters_filter rfl]

end Reserve

theorem commitExtends_refuses (depth : Nat) {exts : List CutExtension}
    (hne : ∀ e ∈ exts, e.hash ≠ g ∧ ctx.Names e.key e.cut) (hv : { pass with registers := staged }.Stands ctx g old) :
    Leaves ctx g old id (commitExtends ctx.view depth exts staged pass) := by
  induction exts generalizing staged pass with
  | nil => exact leaves_ok hv
  | cons e rest ih =>
    obtain ⟨⟨he, hnamed⟩, hrest⟩ := forall_mem_cons.mp hne
    unfold commitExtends
    split
    · exact ih hrest ⟨⟨fun k c h => joinRegister_keeps (hv.holds k c h), fun _ _ =>
        joinRegister_values (.inr hnamed) hv.named, hv.judged, hv.condemned⟩, hv.verdicts, hv.state_eq⟩
    · exact leaves_error ⟨hv.verdicts, hv.state_eq, nofun⟩
    · exact ih hrest (refuses_setCutVerdict hv he rfl)

section Pass

variable (hsub : members ⊆ ctx.candidates)
  (hg : ∀ c ∈ members, c.hash = g → cutOpRegisters c = [] ∧ cutExtendRegister c = none)
  (hv : pass.verdicts.Refuses g)

include hsub hg hv

/-- **What is admitted** is not the genesis, names its cuts, and is all there is but what has a verdict. -/
theorem admitCutRegisters_refuses : (admitCutRegisters ctx pass members).1.Stands ctx g pass ∧
    (∀ a ∈ (admitCutRegisters ctx pass members).2, a.hash ≠ g ∧
      a.registers = (cutOpRegisters a.op).map (fun r => (r.1, r.2.1)) ∧ ∀ kc ∈ a.registers, ctx.Names kc.1 kc.2) ∧
    ∀ c ∈ members, admission ctx pass c ≠ .skip →
      ⟨c, (cutOpRegisters c).map fun r => (r.1, r.2.1)⟩ ∈ (admitCutRegisters ctx pass members).2 ∨
        (admitCutRegisters ctx pass members).1.verdicts.cutVerdicts c.hash ≠ none := by
  refine ⟨refuses_setCutVerdicts (.refl hv) members fun c hc o ho =>
    ⟨(admission_refuses ho).1, fun h => (admission_refuses ho).2 (hg c hc h).1⟩, fun a ha => ?_, fun c hc hadm => ?_⟩
  · obtain ⟨c, hc, hac⟩ := mem_filterMap.mp ((mem_sorted AdmittedCut.hash).mp ha)
    obtain ⟨rfl, hne, hvalid⟩ := admission_admitted hac
    refine ⟨fun h => hne (hg c hc h).1, rfl, fun kc hkc => ?_⟩
    obtain ⟨r, hr, rfl⟩ := mem_map.mp hkc
    exact ⟨c, hsub hc, r.2.2, .inl hr, hvalid r hr⟩
  · cases ha : admission ctx pass c with
    | skip => exact absurd ha hadm
    | verdict o => exact .inr (insertAll_ne_none (.inr ⟨c, hc, rfl, by simp [ha, Admission.outcome]⟩))
    | admits regs =>
      have hsome : (admission ctx pass c).admitted c = some ⟨c, regs⟩ := by rw [ha]; rfl
      exact .inl ((mem_sorted _).mpr (mem_filterMap.mpr ⟨c, hc, (admission_admitted hsome).1 ▸ hsome⟩))

theorem commitRegisters_refuses (depth : Nat) (admitted : List AdmittedCut) :
    Leaves ctx g { pass with registers := stagedRegisters ctx.view pass.registers admitted } id
      (commitRegisters ctx depth pass members admitted) := by
  have hset := @refuses_setCutVerdicts g ctx _ _ (.refl hv) members
    (fun c => (extendAdmission ctx pass (stagedRegisters ctx.view pass.registers admitted) c).outcome)
    fun c hc o ho => ⟨(extendAdmission_refuses ho).1, fun h => (extendAdmission_refuses ho).2 (hg c hc h).2⟩
  refine commitExtends_refuses depth (fun e he => ?_)
    ⟨⟨fun _ _ h => h, fun _ _ => .inl, hset.judged, hset.condemned⟩, hset.verdicts, hset.state_eq⟩
  obtain ⟨c, hc, hec⟩ := mem_filterMap.mp ((mem_sorted CutExtension.hash).mp he)
  obtain ⟨rfl, chain, hext, hvalid⟩ := extendAdmission_extension hec
  exact ⟨fun h => by simp [(hg e.op hc h).2] at hext, e.op, hsub hc, chain, .inr hext, hvalid⟩

/-- **The register pass refuses**, never finds an entry ahead, has nothing to say of the genesis, and keeps
    what the registers hold. Every cut of a live author is installed, or it has a verdict; where there are owners,
    one is closed by none of those that are. -/
theorem registerPass_refuses (depth : Nat) :
    Leaves ctx g pass id (registerPass ctx depth members pass) ∧
      ∀ p, registerPass ctx depth members pass = .ok p →
        (∀ c ∈ members, admission ctx pass c ≠ .skip → p.verdicts.cutVerdicts c.hash ≠ none ∨
          ∀ r ∈ cutOpRegisters c, p.registers.Holds ctx.view r.1 r.2.1) ∧
        (pass.state.owners.keys ≠ [] → ∃ d, (pass.state.owners.lookup d).isSome ∧ ∀ c ∈ members,
          admission ctx pass c ≠ .skip → p.verdicts.cutVerdicts c.hash = none →
            closesOpenIncarnation c.op pass.state.owners ≠ some d) := by
  obtain ⟨hfirst, hadmitted, hin⟩ := @admitCutRegisters_refuses g ctx pass members hsub hg hv
  unfold registerPass stageRegisterJoins
  dsimp only
  generalize admitCutRegisters ctx pass members = cuts at hadmitted hfirst hin ⊢
  obtain ⟨hsole, hsolesub, hsolein⟩ := @rejectSoleOwnerCuts_refuses g ctx cuts.1 cuts.2
    (fun a ha => (hadmitted a ha).1) hfirst.verdicts
  generalize rejectSoleOwnerCuts cuts.1 cuts.2 = sole at hsole hsolesub hsolein ⊢
  obtain ⟨hjoins, hstaged⟩ := @stageJoins_refuses g ctx sole.1 sole.1 sole.2 depth
    (fun a ha => (hadmitted a (hsolesub ha)).1) sole.1.registers (.refl hsole.verdicts)
  have hbefore := hsole.trans hfirst
  cases hj : stageJoins ctx.view depth sole.2 sole.1.registers sole.1 with
  | error p => exact ⟨leaves_error ((hjoins.trans hbefore).1 p hj), nofun⟩
  | ok x =>
    have hx := hjoins.2 x hj
    obtain ⟨hkept, hreg, hinst⟩ := hstaged x hj
    have hnamed := fun a ha => hadmitted a (hsolesub (hkept ha))
    dsimp only
    split
    · exact ⟨leaves_error ⟨hx.verdicts, (hx.trans hbefore).state_eq, nofun⟩, nofun⟩
    obtain ⟨hres, hresreg, hresin⟩ := @reserveOwner_refuses g ctx x.1 x.1 x.2 (fun a ha => (hnamed a ha).1)
      x.1.state.owners (.refl hx.verdicts)
    unfold reserveSurvivingOwner
    generalize hR : reserveOwner x.2 x.1.state.owners x.1 = R at hres hresreg hresin ⊢
    have hRsub : R.2 ⊆ x.2 := hR ▸ reserveOwner_subset
    have hcommit := commitRegisters_refuses hsub hg hres.verdicts depth R.2
    have hstands : DepthPass.Stands { R.1 with registers := stagedRegisters ctx.view R.1.registers R.2 } ctx g x.1 :=
      ⟨⟨fun k c h => stagedRegisters_keeps _ (hres.holds k c h), fun k c h => hresreg ▸
        stagedRegisters_named (fun a ha => (hnamed a (hRsub ha)).2.2) h, hres.judged, hres.condemned⟩,
        hres.verdicts, hres.state_eq⟩
    refine ⟨hcommit.trans (hstands.trans (hx.trans hbefore)), fun p hp => ?_⟩
    -- a cut through the stages: at each it has its verdict, or goes on
    have hend := hcommit.2 p hp
    have hpx := hend.toKeeps.trans hstands.toKeeps
    have hpsole := hpx.trans hx.toKeeps
    have hflow : ∀ c ∈ members, admission ctx pass c ≠ .skip → p.verdicts.cutVerdicts c.hash ≠ none ∨
        ∃ a ∈ R.2, a.op = c ∧ ∀ r ∈ cutOpRegisters c, a.raises r.1 = true ∧
          (stagedRegisters ctx.view sole.1.registers x.2).Holds ctx.view r.1 r.2.1 := by
      intro c hc hadm
      rcases hin c hc hadm with hmem | hjudged
      swap
      · exact .inl ((hpsole.trans hsole.toKeeps).judged _ hjudged)
      rcases hsolein _ hmem with hmem | hjudged
      swap
      · exact .inl (hpsole.judged _ hjudged)
      have hnd : (((cutOpRegisters c).map fun r => (r.1, r.2.1)).map Prod.fst).Nodup := by
        unfold cutOpRegisters
        split <;> simp [controlLog, secretsLog]
      rcases hinst _ hmem hnd with hjudged | ⟨hmem, hholds⟩
      · exact .inl (hpx.judged _ hjudged)
      rcases hresin _ hmem with hmem | hjudged
      swap
      · exact .inl (hend.judged _ hjudged)
      refine .inr ⟨_, hmem, rfl, fun r hr => ?_⟩
      have hkey := mem_map_of_mem (f := fun r : RegisterKey × Cut × CutCoordinate => (r.1, r.2.1)) hr
      exact ⟨decide_eq_true (mem_map_of_mem hkey), hholds _ hkey⟩
    refine ⟨fun c hc hadm => (hflow c hc hadm).imp_right ?_, fun hown => ?_⟩
    · rintro ⟨a, ha, -, hall⟩ r hr
      obtain ⟨hkey, held, hheld, hpre⟩ := hall r hr
      refine hend.holds _ _ ⟨held, ?_, hpre⟩
      rw [← hheld, ← hreg, ← hresreg]
      subst hR
      refine stagedRegisters_reserve (fun b hb b' hb' hbk hbk' => ?_) ha hkey _
      have hkeys : ∀ a ∈ x.2, a.raises r.1 = true → r.1 ∈ (cutOpRegisters a.op).map Prod.fst := fun a ha hak => by
        simpa [AdmittedCut.raises, (hnamed a ha).2.1, Function.comp_def] using hak
      exact closesOpen_of_key (hkeys b hb hbk) (hkeys b' hb' hbk')
    · have hstate : x.1.state = pass.state := (hx.trans hbefore).state_eq
      rw [← hstate] at hown ⊢
      subst hR
      obtain ⟨d, hd, hspared⟩ := @reserveOwner_spares x.1 x.2 x.1.state.owners hown
      refine ⟨d, hd, fun c hc hadm hnone => ?_⟩
      obtain ⟨a, ha, rfl, -⟩ := (hflow c hc hadm).resolve_left (not_not.mpr hnone)
      exact hspared a ha

end Pass

/-- The registers are clear of the candidates they have no verdict on, the genesis apart; they
    answer what they park by; and their cuts are the candidates'. -/
structure DepthPass.Derived (ctx : FoldContext) (pass : DepthPass) : Prop where
  clears : ∀ c ∈ ctx.candidates, c.hash ≠ ctx.rootId → pass.verdicts.decided c.hash = none →
    registerVerdict c pass.registers ctx.view = .clear
  parks : ∀ c ∈ ctx.candidates, ∀ r, pass.verdicts.parked c.hash = some r →
    registerVerdict c pass.registers ctx.view = .parked r
  named : ∀ key cut, pass.registers key = some cut → ctx.Names key cut

theorem derived_start (ctx : FoldContext) (state : FoldState) : Derived ctx { state } where
  clears c _ _ _ := by simp [registerVerdict, branchIs, Registers.anyScoped]
  parks _ _ _ h := by cases h
  named _ _ h := by cases h

theorem rederive_derived (hd : (ctx.candidates.map hash).Nodup)
    (hnamed : ∀ key cut, pass.registers key = some cut → ctx.Names key cut) :
    (rederiveCondemnation ctx pass).Derived ctx := by
  refine ⟨fun c hc hne hdec => ?_, fun c hc r hr => ?_, hnamed⟩
  · simp only [decided, rederiveCondemnation, insertAll_of_mem hd hc, Option.or_eq_none_iff,
      Option.map_eq_none_iff] at hdec
    obtain ⟨⟨hcond, hold⟩, ⟨hpark, -⟩, -⟩ := hdec
    unfold rederived at hcond hpark
    rw [if_neg (by simp [hne, hold])] at hcond hpark
    show registerVerdict c pass.registers ctx.view = .clear
    cases hv : registerVerdict c pass.registers ctx.view with
    | clear => rfl
    | condemned r =>
      rw [hv] at hcond
      cases hcond
    | parked r =>
      rw [hv] at hpark
      cases hpark
  · simp only [rederiveCondemnation, insertAll_of_mem hd hc, Option.or_none] at hr
    unfold rederived at hr
    split at hr
    · cases hr
    show registerVerdict c pass.registers ctx.view = .parked r
    cases hv : registerVerdict c pass.registers ctx.view with
    | parked r' =>
      rw [hv] at hr
      cases hr
      rfl
    | _ => simp [hv, RegisterVerdict.parking] at hr

theorem rederive_keeps : (rederiveCondemnation ctx pass).Keeps ctx pass where
  holds _ _ h := h
  named _ _ := .inl
  judged _ h := h
  condemned _ h := insertAll_ne_none (.inl h)

theorem rederive_refuses (hv : pass.verdicts.Refuses g)
    (hclear : ∀ c ∈ ctx.candidates, c.hash = g → rederived ctx pass c = .clear) :
    (rederiveCondemnation ctx pass).verdicts.Refuses g := by
  refine ⟨fun k hk => ?_, hv.cut, ?_, ?_⟩
  rotate_left
  · refine insertAll_induction (fun x => x = none) (fun c hmem hc r hval => ?_) hv.spared.1
    rw [hclear c hmem hc] at hval
    cases hval
  · refine insertAll_induction (fun x => x = none) (fun c hmem hc r hval => ?_) rfl
    rw [hclear c hmem hc] at hval
    cases hval
  rcases insertAll_cases hk with hold | ⟨c, -, -, hval⟩
  · cases hold
  · unfold rederived registerVerdict at hval
    repeat' split at hval
    all_goals cases hval

/-! ## 3. One effect -/

/-- An effective candidate takes the next position and has its effect. -/
def FoldState.enact (state : FoldState) (c : Candidate) : FoldState :=
  applyEffect c state.takeEpoch.2

section Effect

variable {parked : EntryHash → Option ParkReason}

theorem authorityStatus_live_iff : authorityStatus c inc state parked = .live ↔
    ∃ id mint, Incarnations.authorIncarnationId c = some id ∧ inc.candidate id = some mint ∧
      mint.subjectDevice = c.header.deviceFingerprint ∧ id ∈ state.live := by
  unfold authorityStatus
  cases hid : Incarnations.authorIncarnationId c with
  | none => simp
  | some id =>
    cases hmint : inc.candidate id with
    | none => simp [hmint]
    | some mint =>
      by_cases hdev : mint.subjectDevice = c.header.deviceFingerprint
      · by_cases hlive : id ∈ state.live
        · simp [hmint, hdev, hlive]
        · cases hp : parked id <;> simp [hmint, hdev, hlive, hp]
      · simp [hmint, hdev]

theorem classifyEffect_effective (h : classifyEffect c inc state parked = .effective) :
    authorityStatus c inc state parked = .live ∧ classifyOp c state = .effective := by
  unfold classifyEffect at h
  split at h
  all_goals first
    | cases h
    | exact ⟨‹_›, h⟩

theorem classifyEffect_parked (hp : ∀ h, parked h ≠ some .authLenAhead)
    (h : classifyEffect c inc state parked = .parked r) : r ≠ .authLenAhead := by
  rintro rfl
  unfold classifyEffect at h
  cases hst : authorityStatus c inc state parked with
  | parkedAuthorizer reason =>
    simp only [hst, EffectVerdict.parked.injEq] at h
    subst h
    unfold authorityStatus at hst
    repeat' split at hst
    all_goals cases hst
    exact hp _ ‹_›
  | live =>
    simp only [hst] at h
    unfold classifyOp at h
    dsimp only at h
    repeat' split at h
    all_goals cases h
  | _ => simp [hst] at h

/-- An entry that becomes effective: no verdict stands, its author is live, the state admits its op. -/
structure Enacts (inc : Incarnations) (v : FoldVerdicts) (state : FoldState) (c : Candidate) : Prop where
  undecided : v.decided c.hash = none
  author : ∃ id mint, Incarnations.authorIncarnationId c = some id ∧ inc.candidate id = some mint ∧
    mint.subjectDevice = c.header.deviceFingerprint ∧ id ∈ state.live
  admits : classifyOp c state = .effective

/-- **What one effect step does**: it refuses and leaves the state, or enacts at the next position. -/
theorem effectStep_cases (hv : v.Refuses g) (o : Outcomes) (c : Candidate) :
    (∃ x, x.isRefusal = true ∧ effectStep inc v (state, o) c = (state, o.insert c.hash x)) ∨
      (Enacts inc v state c ∧ effectStep inc v (state, o) c =
        (state.enact c, o.insert c.hash (.effective state.nextAuthEpoch))) := by
  unfold effectStep judge
  cases hdec : v.decided c.hash with
  | some x => exact Or.inl ⟨x, hv.decided hdec, rfl⟩
  | none =>
    cases hcl : classifyEffect c inc state v.parked with
    | effective =>
      obtain ⟨hlive, hop⟩ := classifyEffect_effective hcl
      exact Or.inr ⟨⟨hdec, authorityStatus_live_iff.mp hlive, hop⟩, by simp [FoldState.takeEpoch, FoldState.enact]⟩
    | rejected r => exact Or.inl ⟨.rejected r, rfl, by simp⟩
    | parked r =>
      exact Or.inl ⟨.parked r, Outcome.parked_isRefusal (classifyEffect_parked hv.parked hcl), by simp⟩

theorem effectStep_of_effective {s : FoldState × Outcomes} (hdec : v.decided c.hash = none)
    (h : classifyEffect c inc s.1 v.parked = .effective) : effectStep inc v s c =
      (s.1.enact c, s.2.insert c.hash (.effective s.1.nextAuthEpoch)) := by
  simp [effectStep, judge, hdec, h, FoldState.enact, FoldState.takeEpoch]

end Effect

/-! ## 4. The depths -/

theorem effectPass_rule (I : FoldState × Outcomes → Prop)
    (hstep : ∀ c ∈ members, ∀ s, I s → I (effectStep inc v s c)) {s : FoldState × Outcomes}
    (hI : I s) : I (effectPass inc v members s) :=
  List.foldlRecOn _ (effectStep inc v) hI fun s hs c hc =>
    hstep c ((mem_sorted effectRank).mp hc) s hs

theorem DepthPass.Keeps.undecided (h : pass.Keeps ctx old) (hnew : pass.Derived ctx) (hold : old.Derived ctx)
    (hview : ctx.view c.hash = some c.header) (hc : c ∈ ctx.candidates)
    (hne : c.hash ≠ ctx.rootId) (hdec : pass.verdicts.decided c.hash = none) : old.verdicts.decided c.hash = none := by
  have hclear := hnew.clears c hc hne hdec
  simp only [decided, Option.or_eq_none_iff, Option.map_eq_none_iff] at hdec ⊢
  refine ⟨?_, ?_, ?_⟩
  · by_contra hcond
    exact h.condemned _ hcond hdec.1
  · rw [Option.eq_none_iff_forall_ne_some]
    intro r hr
    refine not_parked_of_later hview (fun key cut hcut => h.holds key cut ⟨cut, hcut, fun w hw => ⟨w, hw, .refl⟩⟩)
      (fun key seq w x hcut hx => ?_) hclear (hold.parks c hc r hr)
    obtain ⟨b, -, chain, -, hvalid⟩ := hold.named key _ hcut
    by_contra hseq
    simp [validateCutTarget, hx, hseq] at hvalid
  · by_contra hjudged
    exact h.judged _ hjudged hdec.2.2

/-- Nothing held is lost, the registers answer as derived, and they hold the undecided cuts of live
    authors at the first depth. -/
structure DepthPass.Ends (ctx : FoldContext) (old pass : DepthPass) (strata : List (Nat × List Candidate)) : Prop
    extends pass.Keeps ctx old where
  derived : pass.Derived ctx
  installs : ∀ x ∈ strata.head?, ∀ c ∈ x.2, admission ctx old c ≠ .skip → pass.verdicts.decided c.hash = none →
    ∀ r ∈ cutOpRegisters c, pass.registers.Holds ctx.view r.1 r.2.1

/-- The pass after its registers are committed: the condemnations under them, and the effects. -/
def afterRegisters (ctx : FoldContext) (members : List Candidate) (p : DepthPass) (o : Outcomes) :
    DepthPass × Outcomes :=
  let q := rederiveCondemnation ctx p
  let e := effectPass ctx.incarnations q.verdicts members (q.state, o)
  ({ q with state := e.1 }, e.2)

/-- What is asked of the strata: their members are candidates, and the genesis cuts nothing. -/
structure Stratified (ctx : FoldContext) (strata : List (Nat × List Candidate)) : Prop where
  distinct : (ctx.candidates.map hash).Nodup
  members : ∀ x ∈ strata, x.2 ⊆ ctx.candidates
  uncut : ∀ x ∈ strata, ∀ c ∈ x.2, c.hash = ctx.rootId → cutOpRegisters c = [] ∧ cutExtendRegister c = none

section Depths

variable {strata : List (Nat × List Candidate)} {s : DepthPass × Outcomes} {x : Nat × List Candidate}

theorem foldDepths_cons (hs : Stratified ctx (x :: strata)) (hv : s.1.verdicts.Refuses ctx.rootId)
    (hold : s.1.Derived ctx) :
    (∃ p, registerPass ctx x.1 x.2 s.1 = .error p ∧ foldDepths ctx (x :: strata) s = (p, s.2) ∧
      p.verdicts.Refuses ctx.rootId ∧ p.state = s.1.state ∧ p.classification ≠ .live) ∨
    ∃ p, registerPass ctx x.1 x.2 s.1 = .ok p ∧
      foldDepths ctx (x :: strata) s = foldDepths ctx strata (afterRegisters ctx x.2 p s.2) ∧
      p.Stands ctx ctx.rootId s.1 ∧ (rederiveCondemnation ctx p).verdicts.Refuses ctx.rootId ∧
      (afterRegisters ctx x.2 p s.2).1.Derived ctx ∧
      ∀ c ∈ x.2, admission ctx s.1 c ≠ .skip → p.verdicts.cutVerdicts c.hash ≠ none ∨
        ∀ r ∈ cutOpRegisters c, p.registers.Holds ctx.view r.1 r.2.1 := by
  obtain ⟨hleaves, hinst⟩ := @registerPass_refuses _ ctx s.1 x.2 (hs.members x mem_cons_self)
    (hs.uncut x mem_cons_self) hv x.1
  cases hr : registerPass ctx x.1 x.2 s.1 with
  | error p => exact .inl ⟨p, rfl, by simp [foldDepths, foldDepth, hr], hleaves.1 p hr⟩
  | ok p =>
    have hp : p.Stands ctx ctx.rootId s.1 := hleaves.2 p hr
    have hderived := @rederive_derived ctx p hs.distinct fun k c h => (hp.named k c h).elim (hold.named k c) id
    exact .inr ⟨p, rfl, by simp [foldDepths, foldDepth, hr, afterRegisters], hp,
      rederive_refuses hp.verdicts fun _ _ hc => if_pos (.inl hc),
      ⟨hderived.clears, hderived.parks, hderived.named⟩, (hinst p hr).1⟩

theorem Stratified.tail (hs : Stratified ctx (x :: strata)) : Stratified ctx strata :=
  ⟨hs.distinct, fun y hy => hs.members y (mem_cons_of_mem x hy), fun y hy => hs.uncut y (mem_cons_of_mem x hy)⟩

/-- **The rule of a pass**: what the effects of the members preserve, under whatever verdicts refuse, and the
    loss of a mint too, holds after the depths. -/
theorem foldDepths_rule (I : FoldState × Outcomes → Prop)
    (hdrop : ∀ state o c, I (state, o) → I (dropMint state c, o)) (hs : Stratified ctx strata)
    (hstep : ∀ v s, v.Refuses ctx.rootId → ∀ x ∈ strata, ∀ c ∈ x.2, I s →
      I (effectStep ctx.incarnations v s c))
    (hv : s.1.verdicts.Refuses ctx.rootId) (hold : s.1.Derived ctx) (hI : I (s.1.state, s.2)) :
    (foldDepths ctx strata s).1.verdicts.Refuses ctx.rootId ∧
      ((foldDepths ctx strata s).1.classification = .live →
        Ends ctx s.1 (foldDepths ctx strata s).1 strata) ∧
      I ((foldDepths ctx strata s).1.state, (foldDepths ctx strata s).2) := by
  induction strata generalizing s with
  | nil => exact ⟨hv, fun _ => ⟨.refl _, hold, fun _ h => by cases h⟩, hI⟩
  | cons x rest ih =>
    rcases foldDepths_cons hs hv hold with ⟨p, -, heq, hp, hst, hcontested⟩ | ⟨p, -, heq, hp, hredo, hder, hinst⟩
    · rw [heq]
      exact ⟨hp, fun hlive => absurd hlive hcontested, by simpa only [hst] using hI⟩
    · have heffects : I (effectPass ctx.incarnations (rederiveCondemnation ctx p).verdicts x.2
          ((rederiveCondemnation ctx p).state, s.2)) := by
        refine effectPass_rule I (fun c hc s => hstep _ s hredo x mem_cons_self c hc) ?_
        refine List.foldlRecOn (motive := fun st => I (st, s.2)) _ dropMint ?_
          fun st hst' c _ => hdrop st s.2 c hst'
        simpa only [hp.state_eq] using hI
      rw [heq]
      obtain ⟨hend, hlives, hIend⟩ := ih (s := afterRegisters ctx x.2 p s.2) hs.tail
        (fun v s hv y hy => hstep v s hv y (mem_cons_of_mem x hy)) hredo hder heffects
      refine ⟨hend, fun hlive => ?_, hIend⟩
      obtain ⟨hkeeps, hderived, -⟩ := hlives hlive
      have hkeeps : Keeps _ ctx p := hkeeps.trans (show (afterRegisters ctx x.2 p s.2).1.Keeps ctx p from
        ⟨rederive_keeps.holds, rederive_keeps.named, rederive_keeps.judged, rederive_keeps.condemned⟩)
      refine ⟨hkeeps.trans hp.toKeeps, hderived, ?_⟩
      rintro _ ⟨⟩ c hc hadm hdec
      rcases hinst c hc hadm with hcut | hinst
      · simp only [decided, Option.or_eq_none_iff] at hdec
        exact absurd hdec.2.2 (hkeeps.judged _ hcut)
      · exact fun r hr => hkeeps.holds _ _ (hinst r hr)

theorem foldDepths_undecided (hs : Stratified ctx strata) (hv : s.1.verdicts.Refuses ctx.rootId) (hold : s.1.Derived ctx)
    (hlive : (foldDepths ctx strata s).1.classification = .live) (hview : ctx.view c.hash = some c.header)
    (hc : c ∈ ctx.candidates) (hne : c.hash ≠ ctx.rootId)
    (hdec : (foldDepths ctx strata s).1.verdicts.decided c.hash = none) : s.1.verdicts.decided c.hash = none := by
  have hends := (foldDepths_rule (fun _ => True) (fun _ _ _ _ => trivial) hs (fun _ _ _ _ _ _ _ _ => trivial) hv hold
    trivial).2.1 hlive
  exact hends.undecided hends.derived hold hview hc hne hdec

end Depths

end RagRat.Account
