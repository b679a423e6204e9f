/-
  File:      RagRat/Account/CutOrder.lean
  Subject:   CUTS AS PREFIXES OF BRANCHES: the walk back along `prev_hash` decides who descends from whom,
             `joinCuts` joins two cuts in that order, and what is decided stays decided when more arrives.

  * `Parent` -- the link the walk follows: one entry's held predecessor, on its chain and one `seq` below;
  * `BranchPrefix` -- one cut's watermark is reached from the other's over such links;
  * **`joinCuts_join`** -- over the cuts that validate for one chain and whose branches are held, `joinCuts`
    is the partial join of that order;
  * **`withheld_never_flips`** -- with more headers only an undecided answer changes, except that an entry
    condemned as beyond a cut may come to be condemned as off a branch (`condemned_reason_flips`).
-/
import Mathlib.Logic.Relation
import RagRat.Account.Depth

namespace RagRat.Account

open Relation

variable {view : HeaderView} {x y : AccountEntryHeader} {h t w hashA hashB target lower : EntryHash}
  {chain : CutCoordinate} {steps seq seqA seqB : Nat} {more : HeaderView} {stop : EntryHash → Bool}
  {visited : List EntryHash} {j cut : Cut} {registers : Registers}

/-! ## 1. The walk back and the links it follows -/

/-- The second is the first one's held predecessor: the same chain, one `seq` below. -/
def Parent (view : HeaderView) (h p : EntryHash) : Prop :=
  ∃ x y, view h = some x ∧ view p = some y ∧ x.prevHash = some p ∧ y.coordinate = x.coordinate ∧
    y.seq + 1 = x.seq

/-- Every predecessor named on the way back from an entry is held. -/
def Held (view : HeaderView) (h : EntryHash) : Prop :=
  ∀ t, ReflTransGen (Parent view) h t → ∀ x, view t = some x → ∀ p ∈ x.prevHash, (view p).isSome

theorem seq_of_parents (hr : ReflTransGen (Parent view) h t) (hx : view h = some x)
    (hy : view t = some y) :
    y.coordinate = x.coordinate ∧ y.seq ≤ x.seq ∧ (y.seq = x.seq → t = h) := by
  induction hr generalizing y with
  | refl =>
    cases hx.symm.trans hy
    exact ⟨rfl, le_refl _, fun _ => rfl⟩
  | tail _ hstep ih =>
    obtain ⟨u, v, hu, hv, -, hc, hs⟩ := hstep
    have hvy : v = y := Option.some.inj (hv.symm.trans hy)
    obtain ⟨hc', hle, -⟩ := ih hu
    subst hvy
    exact ⟨hc.trans hc', by omega, fun he => by omega⟩

theorem reached_of_stopped (hw : walkBackFrom view chain stop steps visited h = .stopped) :
    ∃ x t, view h = some x ∧ x.coordinate = chain ∧ ReflTransGen (Parent view) h t ∧ stop t = true := by
  induction steps generalizing visited h with
  | zero => cases hw
  | succ steps ih =>
    unfold walkBackFrom at hw
    split at hw
    · cases hw
    rename_i x hx
    split_ifs at hw with hc hstop hvis
    · exact ⟨x, h, hx, not_not.mp hc, .refl, hstop⟩
    split at hw
    · cases hw
    rename_i p hp
    split_ifs at hw with hseq
    obtain ⟨y, t, hy, hyc, hr, ht⟩ := ih hw
    refine ⟨x, t, hx, not_not.mp hc, .head ⟨x, y, hx, hy, hp, hyc.trans (not_not.mp hc).symm, ?_⟩ hr, ht⟩
    simpa [hy] using hseq

/-- **The walk stops at what is reached over `Parent` links**: the bound is on the `seq`, and nothing is visited
    twice. -/
theorem stopped_of_reached {visited : List EntryHash} (hr : ReflTransGen (Parent view) h t) (ht : stop t = true)
    (hx : view h = some x) (hc : x.coordinate = chain)
    (hvis : ∀ v ∈ visited, ∃ y, view v = some y ∧ x.seq < y.seq) (hle : x.seq + 2 ≤ steps) :
    walkBackFrom view chain stop steps visited h = .stopped := by
  induction hr using ReflTransGen.head_induction_on generalizing x steps visited with
  | refl =>
    obtain ⟨k, rfl⟩ : ∃ k, steps = k + 1 := ⟨steps - 1, by omega⟩
    simp [walkBackFrom, hx, hc, ht]
  | @head h p hstep _ ih =>
    obtain ⟨k, rfl⟩ : ∃ k, steps = k + 1 := ⟨steps - 1, by omega⟩
    obtain ⟨x', y, hx', hy, hp, hcy, hseq⟩ := hstep
    cases hx.symm.trans hx'
    by_cases hstop : stop h = true
    · simp [walkBackFrom, hx, hc, hstop]
    have hnew : h ∉ visited := by
      intro hmem
      obtain ⟨y, hy, hlt⟩ := hvis h hmem
      cases hx.symm.trans hy
      omega
    have hgo : walkBackFrom view chain stop (k + 1) visited h =
        walkBackFrom view chain stop k (h :: visited) p := by
      simp [walkBackFrom, hx, hc, hstop, hnew, hp, hy, hseq]
    rw [hgo]
    refine ih hy (hcy.trans hc) (List.forall_mem_cons.mpr ⟨⟨x, hx, by omega⟩, fun v hv => ?_⟩) (by omega)
    obtain ⟨z, hz, hlt⟩ := hvis v hv
    exact ⟨z, hz, by omega⟩

theorem walkBackFrom_held (stop : EntryHash → Bool) (visited : List EntryHash) (hx : view h = some x)
    (hle : x.seq + 2 ≤ steps) (hheld : Held view h) :
    walkBackFrom view chain stop steps visited h ≠ .missingLink := by
  induction steps generalizing visited h x with
  | zero => omega
  | succ steps ih =>
    unfold walkBackFrom
    rw [hx]
    dsimp only
    split_ifs with hc hstop hvis
    · nofun
    · nofun
    · nofun
    split
    · nofun
    rename_i p hp
    obtain ⟨y, hy⟩ := Option.isSome_iff_exists.mp (hheld h .refl x hx p hp)
    split_ifs with hseq
    · nofun
    replace hseq : y.seq + 1 = x.seq := by simpa [hy] using hseq
    by_cases hcy : y.coordinate = x.coordinate
    · exact ih _ hy (by omega) fun t hr => hheld t (.head ⟨x, y, hx, hy, hp, hcy, hseq⟩ hr)
    · -- the predecessor is on another chain: the next turn refuses it
      obtain ⟨k, rfl⟩ : ∃ k, steps = k + 1 := ⟨steps - 1, by omega⟩
      have hforged : y.coordinate ≠ chain := fun h => hcy (h.trans (not_not.mp hc).symm)
      simp [walkBackFrom, hy, hforged]

theorem ancestry_onBranch_iff :
    ancestry target (.at seq w) view = .onBranch ↔
      (view w).isSome ∧ ReflTransGen (Parent view) w target := by
  cases hx : view w with
  | none => simp [ancestry, Cut.hash, hx]
  | some x =>
    have hstop : walkBackFrom view x.coordinate (· = target) (x.seq + 2) [] w = .stopped ↔
        ReflTransGen (Parent view) w target := by
      refine ⟨fun h => ?_, fun h => stopped_of_reached h (by simp) hx rfl nofun (le_refl _)⟩
      obtain ⟨-, t, -, -, ht, heq⟩ := reached_of_stopped h
      exact of_decide_eq_true heq ▸ ht
    rw [← hstop]
    simp only [ancestry, Cut.hash, hx, walkBack, Option.isNone_some, Bool.false_eq_true, if_false]
    cases walkBackFrom view x.coordinate (· = target) (x.seq + 2) [] w <;> simp

theorem ancestry_of_held (hx : view w = some x) (hheld : Held view w) (target : EntryHash)
    (seq : Nat) :
    (ReflTransGen (Parent view) w target → ancestry target (.at seq w) view = .onBranch) ∧
    (¬ ReflTransGen (Parent view) w target → ancestry target (.at seq w) view = .offBranch) := by
  have hon := @ancestry_onBranch_iff view w target seq
  rw [hx] at hon
  refine ⟨fun hr => hon.mpr ⟨rfl, hr⟩, fun hr => ?_⟩
  have hne := @walkBackFrom_held view x w x.coordinate (x.seq + 2) (· = target) [] hx (le_refl _) hheld
  have hnot : ancestry target (.at seq w) view ≠ .onBranch := fun h => hr (hon.mp h).2
  simp only [ancestry, Cut.hash, hx, walkBack, Option.isNone_some, Bool.false_eq_true, if_false] at hnot ⊢
  cases hw : walkBackFrom view x.coordinate (· = target) (x.seq + 2) [] w with
  | stopped => simp [hw] at hnot
  | missingLink => exact absurd hw hne
  | _ => rfl

/-! ## 2. Cuts of one chain -/

/-- A cut that validates for the chain, with all of its branch held. -/
structure ChainCut (view : HeaderView) (chain : CutCoordinate) where
  cut : Cut
  valid : validateCutTarget cut chain view = .ok
  held : ∀ h ∈ cut.hash, Held view h

open ChainCut

/-- The one cut's branch is a part of the other's. -/
def BranchPrefix (view : HeaderView) (a b : Cut) : Prop :=
  ∀ h ∈ a.hash, ∃ k ∈ b.hash, ReflTransGen (Parent view) k h

namespace ChainCut

variable {a b : ChainCut view chain}

theorem header (a : ChainCut view chain) (hcut : a.cut = .at seq h) :
    ∃ x, view h = some x ∧ x.coordinate = chain ∧ x.seq = seq := by
  have hv := a.valid
  rw [hcut] at hv
  cases hx : view h with
  | none => simp [validateCutTarget, hx] at hv
  | some x => exact ⟨x, rfl, by simpa [validateCutTarget, hx] using hv⟩

theorem seq_le_of_branch (ha : a.cut = .at seqA hashA) (hb : b.cut = .at seqB hashB)
    (h : BranchPrefix view a.cut b.cut) :
    ReflTransGen (Parent view) hashB hashA ∧ seqA ≤ seqB ∧ (seqA = seqB → hashA = hashB) := by
  obtain ⟨x, hx, -, hxs⟩ := a.header ha
  obtain ⟨y, hy, -, hys⟩ := b.header hb
  obtain ⟨k, hk, hr⟩ := h hashA (by rw [ha]; rfl)
  rw [hb] at hk
  cases hk
  obtain ⟨-, hle, heq⟩ := seq_of_parents hr hy hx
  exact ⟨hr, by omega, fun he => heq (by omega)⟩

theorem prefix_refl (a : Cut) : BranchPrefix view a a := fun h hh => ⟨h, hh, .refl⟩

theorem prefix_trans {a b c : Cut} (hab : BranchPrefix view a b) (hbc : BranchPrefix view b c) :
    BranchPrefix view a c := by
  intro h hh
  obtain ⟨k, hk, hr⟩ := hab h hh
  obtain ⟨l, hl, hr'⟩ := hbc k hk
  exact ⟨l, hl, hr'.trans hr⟩

theorem prefix_antisymm (hab : BranchPrefix view a.cut b.cut) (hba : BranchPrefix view b.cut a.cut) :
    a.cut = b.cut := by
  cases ha : a.cut with
  | empty =>
    cases hb : b.cut with
    | empty => rfl
    | «at» seqB hashB =>
      obtain ⟨k, hk, -⟩ := hba hashB (by rw [hb]; rfl)
      rw [ha] at hk
      cases hk
  | «at» seqA hashA =>
    cases hb : b.cut with
    | empty =>
      obtain ⟨k, hk, -⟩ := hab hashA (by rw [ha]; rfl)
      rw [hb] at hk
      cases hk
    | «at» seqB hashB =>
      obtain ⟨-, hle, heq⟩ := seq_le_of_branch ha hb hab
      obtain ⟨-, hle', -⟩ := seq_le_of_branch hb ha hba
      have hs : seqA = seqB := le_antisymm hle hle'
      rw [hs, heq hs]

theorem joinAlong_cases (ha : a.cut = .at seqA hashA) (hb : b.cut = .at seqB hashB)
    (hlt : seqA < seqB) :
    (BranchPrefix view a.cut b.cut ∧ joinAlong hashA b.cut view = .extended b.cut) ∨
    (¬ BranchPrefix view a.cut b.cut ∧ ¬ BranchPrefix view b.cut a.cut ∧
      joinAlong hashA b.cut view = .incomparable) := by
  obtain ⟨y, hy, -⟩ := b.header hb
  have hheld : Held view hashB := b.held hashB (by rw [hb]; rfl)
  obtain ⟨hon, hoff⟩ := ancestry_of_held hy hheld hashA seqB
  by_cases hr : ReflTransGen (Parent view) hashB hashA
  · refine .inl ⟨?_, by simp [joinAlong, hb, hon hr]⟩
    rw [ha, hb]
    rintro h ⟨⟩
    exact ⟨hashB, rfl, hr⟩
  · refine .inr ⟨fun h => hr (seq_le_of_branch ha hb h).1, fun h => ?_, by simp [joinAlong, hb, hoff hr]⟩
    exact absurd (seq_le_of_branch hb ha h).2.1 (not_le.mpr hlt)

theorem joinCuts_cases (a b : ChainCut view chain) :
    (BranchPrefix view a.cut b.cut ∧ joinCuts a.cut b.cut view = .extended b.cut) ∨
    (BranchPrefix view b.cut a.cut ∧ joinCuts a.cut b.cut view = .extended a.cut) ∨
    (¬ BranchPrefix view a.cut b.cut ∧ ¬ BranchPrefix view b.cut a.cut ∧
      joinCuts a.cut b.cut view = .incomparable) := by
  cases ha : a.cut with
  | empty => exact .inl ⟨nofun, by simp [joinCuts]⟩
  | «at» seqA hashA =>
    cases hb : b.cut with
    | empty => exact .inr (.inl ⟨nofun, rfl⟩)
    | «at» seqB hashB =>
      rcases lt_trichotomy seqA seqB with hlt | rfl | hgt
      · have hjoin : joinCuts (.at seqA hashA) (.at seqB hashB) view =
            joinAlong hashA (.at seqB hashB) view := by
          simp [joinCuts, hlt.ne, hlt]
        rw [hjoin, ← ha, ← hb]
        exact (joinAlong_cases ha hb hlt).imp_right .inr
      · by_cases hh : hashA = hashB
        · subst hh
          exact .inl ⟨prefix_refl _, by simp [joinCuts]⟩
        · refine .inr (.inr ⟨fun h => ?_, fun h => ?_, by simp [joinCuts, hh]⟩)
          · exact hh ((seq_le_of_branch ha hb (ha ▸ hb ▸ h)).2.2 rfl)
          · exact hh ((seq_le_of_branch hb ha (ha ▸ hb ▸ h)).2.2 rfl).symm
      · have hjoin : joinCuts (.at seqA hashA) (.at seqB hashB) view =
            joinAlong hashB (.at seqA hashA) view := by
          simp [joinCuts, hgt.ne', not_lt.mpr hgt.le]
        rw [hjoin, ← ha, ← hb]
        exact .inr ((joinAlong_cases hb ha hgt).imp_right fun h => ⟨h.2.1, h.1, h.2.2⟩)

theorem joinCuts_eq (a b : ChainCut view chain) :
    (BranchPrefix view a.cut b.cut → joinCuts a.cut b.cut view = .extended b.cut) ∧
    (BranchPrefix view b.cut a.cut → joinCuts a.cut b.cut view = .extended a.cut) ∧
    (¬ BranchPrefix view a.cut b.cut → ¬ BranchPrefix view b.cut a.cut →
      joinCuts a.cut b.cut view = .incomparable) := by
  rcases joinCuts_cases a b with ⟨hab, hj⟩ | ⟨hba, hj⟩ | ⟨hab, hba, hj⟩
  · exact ⟨fun _ => hj, fun h => by rw [hj, prefix_antisymm hab h], fun h => absurd hab h⟩
  · exact ⟨fun h => by rw [hj, prefix_antisymm h hba], fun _ => hj, fun _ h => absurd hba h⟩
  · exact ⟨fun h => absurd h hab, fun h => absurd h hba, fun _ _ => hj⟩

theorem join_is_lub (h : joinCuts a.cut b.cut view = .extended j) :
    (j = a.cut ∨ j = b.cut) ∧ BranchPrefix view a.cut j ∧ BranchPrefix view b.cut j ∧
    ∀ u, BranchPrefix view a.cut u → BranchPrefix view b.cut u → BranchPrefix view j u := by
  rcases joinCuts_cases a b with ⟨hab, hj⟩ | ⟨hba, hj⟩ | ⟨-, -, hj⟩ <;> rw [hj] at h <;> cases h
  · exact ⟨.inr rfl, hab, prefix_refl _, fun u _ hb => hb⟩
  · exact ⟨.inl rfl, prefix_refl _, hba, fun u ha _ => ha⟩

end ChainCut

/-- **`joinCuts` IS A PARTIAL JOIN.** Over the cuts that validate for one chain, in a view that
    holds their branches, 'branch prefix of' is a partial order with least element `empty`;
    `joinCuts` is commutative, idempotent and, where defined, associative; a defined join is the
    least upper bound; and it is incomparable exactly if neither cut is a prefix of the other, never
    unknown. -/
theorem joinCuts_join (view : HeaderView) (chain : CutCoordinate) (a b c : ChainCut view chain) :
    (BranchPrefix view .empty a.cut ∧ BranchPrefix view a.cut a.cut ∧
      (BranchPrefix view a.cut b.cut → BranchPrefix view b.cut c.cut → BranchPrefix view a.cut c.cut) ∧
      (BranchPrefix view a.cut b.cut → BranchPrefix view b.cut a.cut → a.cut = b.cut)) ∧
    joinCuts a.cut b.cut view = joinCuts b.cut a.cut view ∧
    joinCuts a.cut a.cut view = .extended a.cut ∧
    joinCuts .empty a.cut view = .extended a.cut ∧
    (∀ x y l r, joinCuts a.cut b.cut view = .extended x → joinCuts b.cut c.cut view = .extended y →
      joinCuts x c.cut view = .extended l → joinCuts a.cut y view = .extended r → l = r) ∧
    (∀ j, joinCuts a.cut b.cut view = .extended j →
      BranchPrefix view a.cut j ∧ BranchPrefix view b.cut j ∧ ∀ u : ChainCut view chain,
        BranchPrefix view a.cut u.cut → BranchPrefix view b.cut u.cut → BranchPrefix view j u.cut) ∧
    (joinCuts a.cut b.cut view = .incomparable ↔
      ¬ BranchPrefix view a.cut b.cut ∧ ¬ BranchPrefix view b.cut a.cut) ∧
    joinCuts a.cut b.cut view ≠ .unknown := by
  refine ⟨⟨nofun, prefix_refl _, prefix_trans, prefix_antisymm⟩, ?_,
    (joinCuts_eq a a).1 (prefix_refl _), by cases a.cut <;> rfl, ?_, ?_, ?_, ?_⟩
  · rcases joinCuts_cases a b with ⟨h, hj⟩ | ⟨h, hj⟩ | ⟨h, h', hj⟩ <;> rw [hj]
    · exact ((joinCuts_eq b a).2.1 h).symm
    · exact ((joinCuts_eq b a).1 h).symm
    · exact ((joinCuts_eq b a).2.2 h' h).symm
  · intro x y l r hx hy hl hr
    -- both are the least cut above `a`, `b` and `c`
    obtain ⟨hx', hax, hbx, hxu⟩ := join_is_lub hx
    obtain ⟨hy', hby, hcy, hyu⟩ := join_is_lub hy
    obtain ⟨X, rfl⟩ : ∃ X : ChainCut view chain, X.cut = x :=
      hx'.elim (fun h => ⟨a, h.symm⟩) fun h => ⟨b, h.symm⟩
    obtain ⟨Y, rfl⟩ : ∃ Y : ChainCut view chain, Y.cut = y :=
      hy'.elim (fun h => ⟨b, h.symm⟩) fun h => ⟨c, h.symm⟩
    obtain ⟨hl', hxl, hcl, hlu⟩ := join_is_lub hl
    obtain ⟨hr', har, hyr, hru⟩ := join_is_lub hr
    obtain ⟨L, rfl⟩ : ∃ L : ChainCut view chain, L.cut = l :=
      hl'.elim (fun h => ⟨X, h.symm⟩) fun h => ⟨c, h.symm⟩
    obtain ⟨R, rfl⟩ : ∃ R : ChainCut view chain, R.cut = r :=
      hr'.elim (fun h => ⟨a, h.symm⟩) fun h => ⟨Y, h.symm⟩
    refine prefix_antisymm (hlu _ (hxu _ har ?_) ?_) (hru _ ?_ (hyu _ ?_ hcl))
    · exact prefix_trans hby hyr
    · exact prefix_trans hcy hyr
    · exact prefix_trans hax hxl
    · exact prefix_trans hbx hxl
  · intro j hj
    obtain ⟨-, ha, hb, hu⟩ := join_is_lub hj
    exact ⟨ha, hb, fun u => hu u.cut⟩
  · refine ⟨fun h => ?_, fun h => (joinCuts_eq a b).2.2 h.1 h.2⟩
    rcases joinCuts_cases a b with ⟨-, hj⟩ | ⟨-, hj⟩ | ⟨h1, h2, -⟩
    · rw [hj] at h; cases h
    · rw [hj] at h; cases h
    · exact ⟨h1, h2⟩
  · rcases joinCuts_cases a b with ⟨-, hj⟩ | ⟨-, hj⟩ | ⟨-, -, hj⟩ <;> rw [hj] <;> nofun

/-- Three entries of one chain: the root 10 and its two successors, 11 and 12. -/
def forkedView : HeaderView := fun h =>
  if h = 10 then some ⟨7, 0, 100, 0, none, none, 1, 0, 0, some 9⟩
  else if h = 11 ∨ h = 12 then some ⟨7, 0, 100, 1, some 10, none, 1, 0, 0, some 9⟩ else none

theorem forkedView_held (h : EntryHash) : Held forkedView h := by
  intro t _ x hx p hp
  unfold forkedView at hx
  split_ifs at hx <;> cases hx <;> cases hp
  rfl

/-- The root's cut is below a tip's, which is their join; the two tips have none. -/
theorem joinCuts_join_fork :
    BranchPrefix forkedView (.at 0 10) (.at 1 11) ∧
    joinCuts (.at 1 12) (.at 1 11) forkedView = .incomparable ∧
    ¬ BranchPrefix forkedView (.at 1 11) (.at 1 12) := by
  let root : ChainCut forkedView ⟨7, 0, 100⟩ := ⟨.at 0 10, by decide +kernel, fun h _ => forkedView_held h⟩
  let left : ChainCut forkedView ⟨7, 0, 100⟩ := ⟨.at 1 11, by decide +kernel, fun h _ => forkedView_held h⟩
  let right : ChainCut forkedView ⟨7, 0, 100⟩ := ⟨.at 1 12, by decide +kernel, fun h _ => forkedView_held h⟩
  obtain ⟨-, -, -, -, -, hlub, -⟩ := joinCuts_join forkedView ⟨7, 0, 100⟩ root left right
  obtain ⟨-, hcomm, -, -, -, -, hincomparable, -⟩ := joinCuts_join forkedView ⟨7, 0, 100⟩ left right root
  have hnone : joinCuts left.cut right.cut forkedView = .incomparable := by decide +kernel
  exact ⟨(hlub left.cut (by decide +kernel)).1, hcomm ▸ hnone, (hincomparable.mp hnone).1⟩

/-! ## 3. What the registers hold -/

section Registers

open List

variable {key k : RegisterKey} {c : Cut}

theorem joinAlong_extended {higher : Cut} (h : joinAlong lower higher view = .extended j) :
    j = higher ∧ ∃ w ∈ higher.hash, ReflTransGen (Parent view) w lower := by
  unfold joinAlong at h
  split at h <;> cases h
  rename_i hon
  refine ⟨rfl, ?_⟩
  cases j with
  | empty => cases hon
  | «at» seq w => exact ⟨w, rfl, (ancestry_onBranch_iff.mp hon).2⟩

theorem joinCuts_extends {a b : Cut} (h : joinCuts a b view = .extended j) :
    (j = a ∨ j = b) ∧ BranchPrefix view a j ∧ BranchPrefix view b j := by
  have hself : ∀ x, BranchPrefix view x x := fun x w hw => ⟨w, hw, .refl⟩
  unfold joinCuts at h
  split at h
  · cases h
    exact ⟨.inr rfl, nofun, hself _⟩
  · cases h
    exact ⟨.inl rfl, hself _, nofun⟩
  split_ifs at h with hseq hhash
  · cases h
    subst hseq hhash
    exact ⟨.inl rfl, hself _, hself _⟩
  all_goals
    obtain ⟨rfl, w, hw, hr⟩ := joinAlong_extended h
    first
    | exact ⟨.inr rfl, by rintro _ ⟨⟩; exact ⟨w, hw, hr⟩, hself _⟩
    | exact ⟨.inl rfl, hself _, by rintro _ ⟨⟩; exact ⟨w, hw, hr⟩⟩

/-- The register of the key stands at the cut, or beyond it on its branch. -/
def Registers.Holds (view : HeaderView) (registers : Registers) (key : RegisterKey) (cut : Cut) : Prop :=
  ∃ held, registers key = some held ∧ BranchPrefix view cut held

theorem joinRegister_cases (registers : Registers) (k : RegisterKey) (c : Cut) (view : HeaderView) :
    (joinRegisterPeek registers k c view ≠ .applied ∧ joinRegister registers k c view = registers) ∨
      ∃ j, joinRegister registers k c view = Function.update registers k (some j) ∧
        BranchPrefix view c j ∧ (∀ old ∈ registers k, BranchPrefix view old j) ∧ (j = c ∨ registers k = some j) := by
  unfold joinRegisterPeek joinRegister
  cases registers k with
  | none => exact .inr ⟨c, rfl, fun w hw => ⟨w, hw, .refl⟩, nofun, .inl rfl⟩
  | some old =>
    cases hj : joinCuts old c view with
    | extended j =>
      obtain ⟨hor, hold, hnew⟩ := joinCuts_extends hj
      simp only [hj]
      exact .inr ⟨j, rfl, hnew, by rintro _ ⟨⟩; exact hold, hor.symm.imp_right fun h => congrArg some h.symm⟩
    | _ => simp [hj]

theorem joinRegister_of_ne (h : key ≠ k) : joinRegister registers k c view key = registers key := by
  rcases joinRegister_cases registers k c view with ⟨-, heq⟩ | ⟨j, heq, -⟩
  · rw [heq]
  · rw [heq, Function.update_of_ne h]

theorem joinRegister_keeps (h : registers.Holds view key cut) :
    (joinRegister registers k c view).Holds view key cut := by
  obtain ⟨held, hheld, hpre⟩ := h
  rcases joinRegister_cases registers k c view with ⟨-, heq⟩ | ⟨j, heq, -, hold, -⟩
  · exact ⟨held, by rwa [heq], hpre⟩
  rcases eq_or_ne key k with rfl | hne
  · refine ⟨j, by rw [heq, Function.update_self], fun w hw => ?_⟩
    obtain ⟨v, hv, hvw⟩ := hpre w hw
    obtain ⟨u, hu, huv⟩ := hold held hheld v hv
    exact ⟨u, hu, huv.trans hvw⟩
  · exact ⟨held, (joinRegister_of_ne hne).trans hheld, hpre⟩

theorem joinRegister_holds (h : joinRegisterPeek registers k c view = .applied) :
    (joinRegister registers k c view).Holds view k c := by
  rcases joinRegister_cases registers k c view with ⟨hne, -⟩ | ⟨j, heq, hpre, -⟩
  · exact absurd h hne
  · exact ⟨j, by rw [heq, Function.update_self], hpre⟩

theorem joinAll_keeps (cuts : List (RegisterKey × Cut)) (h : registers.Holds view key cut) :
    (joinAll registers cuts view).Holds view key cut :=
  List.foldlRecOn (motive := fun r : Registers => r.Holds view key cut) cuts _ h
    fun _ hr _ _ => joinRegister_keeps hr

theorem joinAll_of_not_mem {cuts : List (RegisterKey × Cut)} (h : ∀ kc ∈ cuts, key ≠ kc.1) :
    joinAll registers cuts view key = registers key :=
  List.foldlRecOn (motive := fun r : Registers => r key = registers key) cuts _ rfl
    fun _ hr kc hkc => (joinRegister_of_ne (h kc hkc)).trans hr

theorem joinAll_congr {registers' : Registers} (cuts : List (RegisterKey × Cut)) (h : registers key = registers' key) :
    joinAll registers cuts view key = joinAll registers' cuts view key := by
  induction cuts generalizing registers registers' with
  | nil => exact h
  | cons kc rest ih =>
    refine ih ?_
    dsimp only
    rcases eq_or_ne key kc.1 with rfl | hne
    · unfold joinRegister
      rw [← h]
      cases hold : registers kc.1 with
      | none => simp
      | some old => cases hj : joinCuts old kc.2 view <;> simp [hj, ← h, hold]
    · rw [joinRegister_of_ne hne, joinRegister_of_ne hne, h]

theorem joinRegister_values {P : RegisterKey → Cut → Prop} (hP : P k c)
    (h : ∀ key cut, registers key = some cut → P key cut) {key : RegisterKey} {cut : Cut}
    (hcut : joinRegister registers k c view key = some cut) : P key cut := by
  rcases joinRegister_cases registers k c view with ⟨-, heq⟩ | ⟨j, heq, -, -, hj⟩
  · exact h key cut (heq ▸ hcut)
  rcases eq_or_ne key k with rfl | hne
  · rw [heq, Function.update_self] at hcut
    cases hcut
    exact hj.elim (fun hj => hj ▸ hP) (h key _)
  · exact h key cut ((joinRegister_of_ne hne).symm.trans hcut)

theorem joinAll_holds {cuts : List (RegisterKey × Cut)} (hnd : (cuts.map Prod.fst).Nodup)
    (h : ∀ kc ∈ cuts, joinRegisterPeek registers kc.1 kc.2 view = .applied) :
    ∀ kc ∈ cuts, (joinAll registers cuts view).Holds view kc.1 kc.2 := by
  induction cuts generalizing registers with
  | nil => exact fun _ hkc => absurd hkc not_mem_nil
  | cons a rest ih =>
    obtain ⟨hnew, hnd⟩ := nodup_cons.mp hnd
    obtain ⟨ha, hrest⟩ := forall_mem_cons.mp h
    refine forall_mem_cons.mpr ⟨joinAll_keeps rest (joinRegister_holds ha), ih hnd fun kc hkc => ?_⟩
    have hne : kc.1 ≠ a.1 := fun he => hnew (he ▸ mem_map_of_mem hkc)
    rw [← hrest kc hkc]
    simp only [joinRegisterPeek, joinRegister_of_ne hne]

end Registers

/-! ## 4. More headers -/

section Growth

variable (hsub : ∀ h x, view h = some x → more h = some x)

include hsub

theorem walkBackFrom_grow (hne : walkBackFrom view chain stop steps visited h ≠ .missingLink) :
    walkBackFrom more chain stop steps visited h = walkBackFrom view chain stop steps visited h := by
  induction steps generalizing visited h with
  | zero => exact absurd rfl hne
  | succ steps ih =>
    cases hx : view h with
    | none => exact absurd (by simp [walkBackFrom, hx]) hne
    | some x =>
      cases hp : x.prevHash with
      | none => simp [walkBackFrom, hx, hsub h x hx, hp]
      | some p =>
        cases hy : view p with
        | some y =>
          simp only [walkBackFrom, hx, hsub h x hx, hp, hy, hsub p y hy] at hne ⊢
          split_ifs at hne ⊢
          · rfl
          · rfl
          · rfl
          · rfl
          · exact ih hne
        | none =>
          -- the predecessor is missing, so the walk ended here
          have hmiss : walkBackFrom view chain stop steps (h :: visited) p = .missingLink := by
            cases steps <;> simp [walkBackFrom, hy]
          simp only [walkBackFrom, hx, hsub h x hx, hp, hy, hmiss] at hne ⊢
          split_ifs at hne ⊢ <;> simp_all

theorem ancestry_grow
    (hdec : ancestry target cut view = .onBranch ∨ ancestry target cut view = .offBranch) :
    ancestry target cut more = ancestry target cut view := by
  cases cut with
  | empty => rfl
  | «at» seq w =>
    cases hx : view w with
    | none => simp [ancestry, Cut.hash, hx] at hdec
    | some x =>
      have hgrow : walkBack view w (· = target) ≠ .missingLink →
          walkBack more w (· = target) = walkBack view w (· = target) := by
        unfold walkBack
        rw [hx, hsub w x hx]
        exact walkBackFrom_grow hsub
      have hne : walkBack view w (· = target) ≠ .missingLink := by
        intro hm
        simp [ancestry, Cut.hash, hx, hm] at hdec
      simp only [ancestry, Cut.hash, hx, hsub w x hx, hgrow hne]

theorem joinCuts_grow {a b : Cut} (hdec : joinCuts a b view ≠ .unknown) :
    joinCuts a b more = joinCuts a b view := by
  have halong : ∀ {h : EntryHash} {cut : Cut}, joinAlong h cut view ≠ .unknown →
      joinAlong h cut more = joinAlong h cut view := by
    intro h cut hne
    have hd : ancestry h cut view = .onBranch ∨ ancestry h cut view = .offBranch := by
      unfold joinAlong at hne
      cases hr : ancestry h cut view <;> simp_all
    unfold joinAlong
    rw [ancestry_grow hsub hd]
  cases a with
  | empty => rfl
  | «at» seqA hashA =>
    cases b with
    | empty => rfl
    | «at» seqB hashB =>
      simp only [joinCuts] at hdec ⊢
      split_ifs at hdec ⊢
      · rfl
      · rfl
      · exact halong hdec
      · exact halong hdec

end Growth

/-! ## 5. What a verdict of the registers says -/

section Verdict

variable {c : Candidate}

theorem anyScoped_iff {p : Cut → Bool} : registers.anyScoped c.header p = true ↔
    ∃ key ∈ RegisterKey.scoping c.header, ∃ cut, registers key = some cut ∧ p cut = true := by
  simp [Registers.anyScoped, Option.any_eq_true]

theorem branchIs_iff {r : AncestryRelation} : branchIs c registers view r = true ↔
    ∃ key ∈ RegisterKey.scoping c.header, ∃ cut, registers key = some cut ∧
      beyond c.header.seq cut = false ∧ ancestry c.hash cut view = r := by
  simp [branchIs, anyScoped_iff]

theorem registerVerdict_offBranch : registerVerdict c registers view = .condemned .offBranch ↔
    branchIs c registers view .offBranch = true := by
  unfold registerVerdict
  split_ifs <;> simp_all

theorem registerVerdict_beyondCut : registerVerdict c registers view = .condemned .beyondCut ↔
    branchIs c registers view .offBranch = false ∧
      registers.anyScoped c.header (beyond c.header.seq) = true := by
  unfold registerVerdict
  split_ifs <;> simp_all

theorem registerVerdict_clear : registerVerdict c registers view = .clear ↔
    ∀ key ∈ RegisterKey.scoping c.header, ∀ cut, registers key = some cut →
      beyond c.header.seq cut = false ∧ ancestry c.hash cut view = .onBranch := by
  constructor
  · intro h key hkey cut hcut
    unfold registerVerdict at h
    split_ifs at h with hoff hbeyond htarget hlink
    have hin : beyond c.header.seq cut = false :=
      Bool.eq_false_iff.mpr fun hb => hbeyond (anyScoped_iff.mpr ⟨key, hkey, cut, hcut, hb⟩)
    refine ⟨hin, ?_⟩
    cases hr : ancestry c.hash cut view with
    | onBranch => rfl
    | offBranch => exact absurd (branchIs_iff.mpr ⟨key, hkey, cut, hcut, hin, hr⟩) hoff
    | unknownCutTarget => exact absurd (branchIs_iff.mpr ⟨key, hkey, cut, hcut, hin, hr⟩) htarget
    | incompleteCutAncestry => exact absurd (branchIs_iff.mpr ⟨key, hkey, cut, hcut, hin, hr⟩) hlink
  · intro h
    have hbranch : ∀ r, r ≠ .onBranch → ¬ branchIs c registers view r = true := by
      intro r hr hb
      obtain ⟨key, hkey, cut, hcut, -, ha⟩ := branchIs_iff.mp hb
      exact hr (ha.symm.trans (h key hkey cut hcut).2)
    have hbeyond : ¬ registers.anyScoped c.header (beyond c.header.seq) = true := by
      intro hb
      obtain ⟨key, hkey, cut, hcut, hb⟩ := anyScoped_iff.mp hb
      rw [(h key hkey cut hcut).1] at hb
      cases hb
    unfold registerVerdict
    rw [if_neg (hbranch .offBranch nofun), if_neg hbeyond, if_neg (hbranch .unknownCutTarget nofun),
      if_neg (hbranch .incompleteCutAncestry nofun)]

/-- **What the registers are clear of in the end they never parked**: an entry on the branch of a cut that was
    raised is on the branch of the cut before, unless it is beyond it. -/
theorem not_parked_of_later {later : Registers} (hview : view c.hash = some c.header)
    (hgrow : ∀ key cut, registers key = some cut → later.Holds view key cut)
    (hseq : ∀ key seq w x, registers key = some (.at seq w) → view w = some x → x.seq = seq)
    (hlater : registerVerdict c later view = .clear) {r : ParkReason} :
    registerVerdict c registers view ≠ .parked r := by
  intro hparked
  have hbranch : ∃ rel, rel ≠ .onBranch ∧ rel ≠ .offBranch ∧ branchIs c registers view rel = true := by
    unfold registerVerdict at hparked
    split_ifs at hparked with _ _ htarget hlink
    · exact ⟨.unknownCutTarget, nofun, nofun, htarget⟩
    · exact ⟨.incompleteCutAncestry, nofun, nofun, hlink⟩
  obtain ⟨rel, hon, hoff, hbranch⟩ := hbranch
  obtain ⟨key, hkey, cut, hcut, hin, rfl⟩ := branchIs_iff.mp hbranch
  obtain ⟨held, hheld, hpre⟩ := hgrow key cut hcut
  cases cut with
  | empty => exact hoff rfl
  | «at» seq w =>
    obtain ⟨k, hk, hkw⟩ := hpre w rfl
    cases held with
    | empty => cases hk
    | «at» s k' =>
      cases hk
      have hkc := (ancestry_onBranch_iff.mp (registerVerdict_clear.mp hlater key hkey _ hheld).2).2
      have hunique : Relator.RightUnique (Parent view) := by
        rintro a b b' ⟨x, -, hx, -, hb, -⟩ ⟨x', -, hx', -, hb', -⟩
        cases hx.symm.trans hx'
        exact Option.some.inj (hb.symm.trans hb')
      -- the two lie on one branch: the entry is at or below the watermark, or above it and then beyond the cut
      have hwc : ReflTransGen (Parent view) w c.hash ∧ (view w).isSome := by
        rcases ReflTransGen.total_of_right_unique hunique hkw hkc with hwc | hcw
        · rcases hwc.cases_head with rfl | ⟨p, ⟨x, -, hx, -⟩, -⟩
          · exact ⟨.refl, by simp [hview]⟩
          · exact ⟨hwc, by simp [hx]⟩
        · rcases hcw.cases_tail with rfl | ⟨p, -, -, y, -, hy, -⟩
          · exact ⟨.refl, by simp [hview]⟩
          · obtain ⟨-, hle, heq⟩ := seq_of_parents hcw hview hy
            have hys := hseq key seq w y hcut hy
            simp only [beyond, decide_eq_false_iff_not, not_lt] at hin
            exact ⟨heq (by omega) ▸ .refl, by simp [hy]⟩
      exact hon (ancestry_onBranch_iff.mpr ⟨hwc.2, hwc.1⟩)

end Verdict

/-- **WITHHELD ENTRIES NEVER FLIP A VERDICT.** With more headers a decided ancestry query and a decided join
    answer as before; an entry clear of the registers stays clear, one condemned as off a branch stays so,
    and one condemned as beyond a cut stays condemned, for the same reason unless a register that was
    undecided now finds it off its branch. -/
theorem withheld_never_flips (view more : HeaderView)
    (hsub : ∀ h x, view h = some x → more h = some x) :
    (∀ target cut, ancestry target cut view = .onBranch ∨ ancestry target cut view = .offBranch →
      ancestry target cut more = ancestry target cut view) ∧
    (∀ a b, joinCuts a b view ≠ .unknown → joinCuts a b more = joinCuts a b view) ∧
    ∀ c registers,
      (registerVerdict c registers view = .clear → registerVerdict c registers more = .clear) ∧
      (registerVerdict c registers view = .condemned .offBranch →
        registerVerdict c registers more = .condemned .offBranch) ∧
      (registerVerdict c registers view = .condemned .beyondCut →
        registerVerdict c registers more =
          .condemned (if branchIs c registers more .offBranch then .offBranch else .beyondCut)) := by
  refine ⟨fun _ _ => ancestry_grow hsub, fun _ _ => joinCuts_grow hsub, fun c registers => ?_⟩
  refine ⟨fun h => ?_, fun h => ?_, fun h => ?_⟩
  · rw [registerVerdict_clear] at h ⊢
    intro key hkey cut hcut
    obtain ⟨hin, hon⟩ := h key hkey cut hcut
    exact ⟨hin, by rw [ancestry_grow hsub (.inl hon), hon]⟩
  · rw [registerVerdict_offBranch, branchIs_iff] at h ⊢
    obtain ⟨key, hkey, cut, hcut, hin, hoff⟩ := h
    exact ⟨key, hkey, cut, hcut, hin, by rw [ancestry_grow hsub (.inr hoff), hoff]⟩
  · obtain ⟨-, hbeyond⟩ := registerVerdict_beyondCut.mp h
    by_cases hoff : branchIs c registers more .offBranch = true
    · rw [if_pos hoff]
      exact registerVerdict_offBranch.mpr hoff
    · rw [if_neg hoff]
      exact registerVerdict_beyondCut.mpr ⟨Bool.eq_false_iff.mpr hoff, hbeyond⟩

/-- An entry at `seq` 5 under the incarnation 9: its device is cut at 3, the incarnation at the entry 8. -/
def twiceCut : Candidate × Registers :=
  (⟨⟨⟨7, 0, 100, 5, some 4, none, 1, 0, 0, some 9⟩, .known (.ownerPromote 101), 7, 5⟩,
    .ownerPromote 101⟩,
   fun key =>
    if key = .device 7 0 100 then some (.at 3 3)
    else if key = .ownerIncarnation 7 0 100 9 then some (.at 8 8) else none)

/-- The forked branch with the entry 8, at `seq` 8 of the same chain, and the root 71 it names. -/
def forkedMore : HeaderView := fun h =>
  if h = 8 then some ⟨7, 0, 100, 8, some 71, none, 1, 0, 0, some 9⟩
  else if h = 71 then some ⟨7, 0, 100, 0, none, none, 1, 0, 0, some 9⟩ else forkedView h

/-- Condemned as beyond the device's cut while the entry 8 is withheld; then as off the branch. -/
theorem condemned_reason_flips :
    registerVerdict twiceCut.1 twiceCut.2 forkedView = .condemned .beyondCut ∧
    registerVerdict twiceCut.1 twiceCut.2 forkedMore = .condemned .offBranch := by
  decide +kernel

/-- The entry of the given hash on the forked branch, and its device cut at the entry 11. -/
def forkedEntry (hash : EntryHash) (seq : Nat) (prev : Option EntryHash) : Candidate × Registers :=
  (⟨⟨⟨7, 0, 100, seq, prev, none, 1, 0, 0, some 9⟩, .known (.ownerPromote 101), 7, hash⟩,
    .ownerPromote 101⟩, fun key => if key = .device 7 0 100 then some (.at 1 11) else none)

/-- Every kind of answer over the forked branch, with more headers. -/
theorem withheld_never_flips_at :
    ancestry 10 (.at 1 11) forkedMore = .onBranch ∧
    joinCuts (.at 1 11) (.at 1 12) forkedMore = .incomparable ∧
    registerVerdict (forkedEntry 10 0 none).1 (forkedEntry 10 0 none).2 forkedMore = .clear ∧
    registerVerdict (forkedEntry 12 1 (some 10)).1 (forkedEntry 12 1 (some 10)).2 forkedMore =
      .condemned .offBranch ∧
    registerVerdict (forkedEntry 13 2 (some 11)).1 (forkedEntry 13 2 (some 11)).2 forkedMore =
      .condemned .beyondCut ∧
    registerVerdict twiceCut.1 twiceCut.2 forkedMore = .condemned .offBranch := by
  have hsub : ∀ h x, forkedView h = some x → forkedMore h = some x := by
    intro h x hx
    have h8 : h ≠ 8 := by rintro rfl; cases hx
    have h71 : h ≠ 71 := by rintro rfl; cases hx
    rw [forkedMore, if_neg h8, if_neg h71, hx]
  obtain ⟨hon, hjoin, hverdict⟩ := withheld_never_flips forkedView forkedMore hsub
  refine ⟨(hon _ _ (.inl ?_)).trans ?_, (hjoin _ _ ?_).trans ?_, (hverdict _ _).1 ?_,
    (hverdict _ _).2.1 ?_, ((hverdict _ _).2.2 ?_).trans ?_, ((hverdict _ _).2.2 ?_).trans ?_⟩ <;>
  decide +kernel

end RagRat.Account
