/-
  File:      RagRat/Account/Branch.lean
  Subject:   BRANCH SELECTION of the content and secrets logs: one accepted chain per coordinate, slot by
             slot, where a register's pin decides a fork before the order of the hashes does.

  * `selectAcceptedBranch` -- the chain of winners from slot 0, and as forked whatever else reaches slot 0
    through eligible entries;
  * `pinnedBranch` -- the entries behind the highest admitted watermark, walked back link by link;
  * `Selected`, `Rooted` -- the same two sets as relations, without loop, bound or order of the input.

  `selectAcceptedBranch_exact` says that the loops compute them, and that a pinned branch which is eligible
  down to slot 0 is accepted whole.
-/
import Mathlib.Data.Finset.Card
import Mathlib.Data.Prod.Lex
import Mathlib.Logic.Relation
import RagRat.Common
import RagRat.Lib.Loop
import RagRat.Lib.Register

namespace RagRat.Branch

open List
open Relation Lib.Loop Lib.Register

variable {slot steps bound n : Nat} {h k w o : EntryHash}

/-! ## 1. Selection -/

/-- The header fields the walks read. -/
structure ChainLink (κ : Type) where
  coordinate : κ
  seq : Nat
  prevHash : Option EntryHash
  deriving DecidableEq

/-- An entry to select from. -/
structure Candidate (κ : Type) where
  entryHash : EntryHash
  header : ChainLink κ

/-- A register's hold on a branch: the entry that must be on it, at its chain and slot. -/
structure BranchPin (κ : Type) where
  coordinate : κ
  seq : Nat
  watermark : EntryHash
  deriving DecidableEq

/-- What a refold selects. -/
structure BranchSelection where
  accepted : Finset EntryHash
  forked : Finset EntryHash

/-- The slots a `u64` can count. -/
def slotCount : Nat := 2 ^ 64

/-- What a refold selects from. A hash names one header; an admitted watermark is held, on the pin's
    chain and at its slot. -/
structure Refold (κ : Type) where
  candidates : List (Candidate κ)
  eligible : Finset EntryHash
  lookup : EntryHash → Option (ChainLink κ)
  pins : List (BranchPin κ)
  admits : BranchPin κ → Bool
  held : ∀ c ∈ candidates, lookup c.entryHash = some c.header
  slots : ∀ c ∈ candidates, c.header.seq < slotCount
  names : ∀ p, admits p = true →
    ∃ x, lookup p.watermark = some x ∧ x.coordinate = p.coordinate ∧ x.seq = p.seq

open Refold

variable {κ : Type} [DecidableEq κ]

/-- The walk back from a watermark, one slot at a time; the first argument bounds it by the `seq`.
    -/
def walkBack (lookup : EntryHash → Option (ChainLink κ)) (chain : κ) :
    Nat → List EntryHash → EntryHash → List EntryHash
  | 0, visited, _ => visited
  | steps + 1, visited, current =>
    match lookup current with
    | none => visited
    | some header =>
      if header.coordinate ≠ chain then visited
      else if current ∈ visited then visited
      else
        match header.prevHash with
        | none => current :: visited
        | some prev =>
          if (lookup prev).any (fun p => p.seq + 1 ≠ header.seq) then current :: visited
          else walkBack lookup chain steps (current :: visited) prev

namespace Refold

variable (r : Refold κ)

/-- The highest admitted pin of a chain, by `(seq, watermark)`. -/
def highestPin (chain : κ) : Option (BranchPin κ) :=
  (sorted (fun p : BranchPin κ => toLex (p.seq, p.watermark))
    (r.pins.filter fun p => p.coordinate = chain ∧ r.admits p)).getLast?

/-- The entries behind the highest admitted watermark. -/
def pinnedBranch (chain : κ) : Finset EntryHash :=
  match r.highestPin chain with
  | none => ∅
  | some pin =>
    match r.lookup pin.watermark with
    | none => {pin.watermark}
    | some head =>
      insert pin.watermark
        (walkBack r.lookup head.coordinate (head.seq + 2) [] pin.watermark).toFinset

/-- The eligible children of a parent on a chain at a slot. -/
def atSlot (chain : κ) (parent : Option EntryHash) (slot : Nat) : List EntryHash :=
  (r.candidates.filter fun c => c.entryHash ∈ r.eligible ∧ c.header.coordinate = chain ∧
    c.header.prevHash = parent ∧ c.header.seq = slot).map (·.entryHash)

/-- Who takes a slot: the pinned child, or else the lowest hash. -/
def winner (chain : κ) (parent : Option EntryHash) (slot : Nat) : Option EntryHash :=
  ((r.atSlot chain parent slot).find? (· ∈ r.pinnedBranch chain)).or (r.atSlot chain parent slot).min?

/-- The winners from a slot on. -/
def winners (chain : κ) : Nat → Nat → Option EntryHash → List EntryHash
  | 0, _, _ => []
  | bound + 1, slot, parent =>
    match r.winner chain parent slot with
    | none => []
    | some w => w :: winners chain bound (slot + 1) (some w)

/-- One child of the parent just taken from the frontier. -/
def rootStep (slot : Nat) (s : List (Option EntryHash × Nat) × Finset EntryHash) (h : EntryHash) :
    List (Option EntryHash × Nat) × Finset EntryHash :=
  if h ∈ s.2 then s
  else (if slot + 1 < slotCount then (some h, slot + 1) :: s.1 else s.1, insert h s.2)

/-- One turn of the search from slot 0: the children of the next place. -/
def rootTurn (chain : κ) (s : List (Option EntryHash × Nat) × Finset EntryHash) :
    (List (Option EntryHash × Nat) × Finset EntryHash) ⊕ Finset EntryHash :=
  match s.1 with
  | [] => .inr s.2
  | (parent, slot) :: frontier =>
    .inl ((r.atSlot chain parent slot).foldl (rootStep slot) (frontier, s.2))

/-- The entries of a chain that reach slot 0. A hash is on one chain, so each starts with an empty
    set. -/
def collectRooted (chain : κ) : Finset EntryHash :=
  (loop (r.rootTurn chain) (r.candidates.length + 2) ([(none, 0)], ∅)).getD ∅

/-- The chains of the eligible candidates. -/
def chains : List κ :=
  (r.candidates.filter (·.entryHash ∈ r.eligible)).map (·.header.coordinate)

/-- The winners of every chain, and as forked the rest of what is rooted. -/
def selectAcceptedBranch : BranchSelection :=
  let accepted := (r.chains.flatMap fun chain => r.winners chain r.candidates.length 0 none).toFinset
  let rooted := r.chains.foldl (fun s chain => s ∪ r.collectRooted chain) ∅
  { accepted := accepted, forked := rooted \ accepted }

/-! ## 2. The sets without the loops -/

/-- An eligible entry of the chain at a slot, after this parent. -/
def Child (chain : κ) (parent : Option EntryHash) (slot : Nat) (h : EntryHash) : Prop :=
  h ∈ r.eligible ∧ ∃ c ∈ r.candidates, c.entryHash = h ∧ c.header = ⟨chain, slot, parent⟩

/-- The child on the pinned branch if there is one, else the one with the smallest hash. -/
def Wins (chain : κ) (parent : Option EntryHash) (slot : Nat) (h : EntryHash) : Prop :=
  r.Child chain parent slot h ∧ (h ∈ r.pinnedBranch chain ∨
    ∀ k, r.Child chain parent slot k → k ∉ r.pinnedBranch chain ∧ h ≤ k)

/-- The chain of winners from slot 0, as far as there is one. -/
inductive Selected (chain : κ) : Nat → EntryHash → Prop where
  | root {h : EntryHash} : r.Wins chain none 0 h → Selected chain 0 h
  | next {slot : Nat} {p h : EntryHash} : Selected chain slot p →
      r.Wins chain (some p) (slot + 1) h → Selected chain (slot + 1) h

/-- Linked to slot 0 through eligible entries. -/
inductive Rooted (chain : κ) : Nat → EntryHash → Prop where
  | root {h : EntryHash} : r.Child chain none 0 h → Rooted chain 0 h
  | next {slot : Nat} {p h : EntryHash} : Rooted chain slot p →
      r.Child chain (some p) (slot + 1) h → Rooted chain (slot + 1) h

/-- The second is the first one's held predecessor: the same chain, one slot below. -/
def Behind (h p : EntryHash) : Prop :=
  ∃ x y, r.lookup h = some x ∧ r.lookup p = some y ∧ x.prevHash = some p ∧
    y.coordinate = x.coordinate ∧ y.seq + 1 = x.seq

end Refold

section Facts

variable {r : Refold κ} {chain : κ} {parent : Option EntryHash} {x : ChainLink κ}
  {pin : BranchPin κ}

theorem mem_atSlot : h ∈ r.atSlot chain parent slot ↔ r.Child chain parent slot h := by
  simp only [Refold.atSlot, mem_map, mem_filter, decide_eq_true_eq, Refold.Child]
  constructor
  · rintro ⟨⟨_, ⟨_, _, _⟩⟩, ⟨hc, he, rfl, rfl, rfl⟩, rfl⟩
    exact ⟨he, _, hc, rfl, rfl⟩
  · rintro ⟨he, ⟨_, _⟩, hc, rfl, rfl⟩
    exact ⟨_, ⟨hc, he, rfl, rfl, rfl⟩, rfl⟩

omit [DecidableEq κ] in
theorem Child.lookup (hc : r.Child chain parent slot h) :
    r.lookup h = some ⟨chain, slot, parent⟩ := by
  obtain ⟨-, c, hc, rfl, hx⟩ := hc
  rw [r.held c hc, hx]

/-! ## 3. The pinned branch -/

omit [DecidableEq κ] in
theorem slot_of_behind {t : EntryHash} (hr : ReflTransGen r.Behind h t) {y : ChainLink κ}
    (hx : r.lookup h = some x) (hy : r.lookup t = some y) :
    y.coordinate = x.coordinate ∧ y.seq ≤ x.seq := by
  induction hr generalizing y with
  | refl =>
    cases hx.symm.trans hy
    exact ⟨rfl, le_refl _⟩
  | tail _ hstep ih =>
    obtain ⟨u, v, hu, hv, -, hc, hs⟩ := hstep
    obtain ⟨hc', hle⟩ := ih hu
    cases hv.symm.trans hy
    exact ⟨hc.trans hc', by omega⟩

omit [DecidableEq κ] in
theorem behind_total (hh : ReflTransGen r.Behind w h) (hk : ReflTransGen r.Behind w k) :
    ReflTransGen r.Behind h k ∨ ReflTransGen r.Behind k h := by
  refine ReflTransGen.total_of_right_unique ?_ hh hk
  rintro a b c ⟨u, -, hu, -, hb, -⟩ ⟨u', -, hu', -, hc, -⟩
  cases hu.symm.trans hu'
  exact Option.some.inj (hb.symm.trans hc)

omit [DecidableEq κ] in
theorem behind_unique (hh : ReflTransGen r.Behind w h) (hk : ReflTransGen r.Behind w k)
    {y : ChainLink κ} (hx : r.lookup h = some x) (hy : r.lookup k = some y) (hslot : x.seq = y.seq) :
    h = k := by
  have hlow : ∀ {a b : EntryHash} {u v : ChainLink κ}, ReflTransGen r.Behind a b →
      r.lookup a = some u → r.lookup b = some v → u.seq = v.seq → a = b := by
    intro a b u v hr hu hv heq
    rcases hr.cases_head with rfl | ⟨c, ⟨u', z, hu', hz, -, -, hs⟩, hr⟩
    · rfl
    · cases hu.symm.trans hu'
      have := (slot_of_behind hr hz hv).2
      omega
  rcases behind_total hh hk with hr | hr
  · exact hlow hr hx hy hslot
  · exact (hlow hr hy hx hslot.symm).symm

/-- **What the walk back visits**: the entries behind its start. Nothing is met twice, and the bound on the
    slots is enough. -/
theorem mem_walkBack {visited : List EntryHash} (hx : r.lookup h = some x)
    (hc : x.coordinate = chain) (hvis : ∀ v ∈ visited, ∃ y, r.lookup v = some y ∧ x.seq < y.seq)
    (hsteps : x.seq + 2 ≤ steps) :
    k ∈ walkBack r.lookup chain steps visited h ↔ k ∈ visited ∨ ReflTransGen r.Behind h k := by
  induction steps generalizing visited h x with
  | zero => omega
  | succ steps ih =>
    have hnew : h ∉ visited := by
      intro hmem
      obtain ⟨y, hy, hlt⟩ := hvis h hmem
      cases hx.symm.trans hy
      omega
    have hprev : ∀ p, r.Behind h p → x.prevHash = some p := by
      rintro p ⟨x', -, hx', -, hp, -⟩
      cases hx.symm.trans hx'
      exact hp
    by_cases hb : ∃ p, r.Behind h p
    · obtain ⟨p, hp⟩ := hb
      have hstep := hp
      obtain ⟨x', y, hx', hy, hlink, hcy, hseq⟩ := hp
      cases hx.symm.trans hx'
      have hgo : walkBack r.lookup chain (steps + 1) visited h =
          walkBack r.lookup chain steps (h :: visited) p := by
        simp [walkBack, hx, hc, hnew, hlink, hy, hseq]
      have hvis' : ∀ v ∈ h :: visited, ∃ z, r.lookup v = some z ∧ y.seq < z.seq := by
        intro v hv
        rcases mem_cons.mp hv with rfl | hv
        · exact ⟨x, hx, by omega⟩
        · obtain ⟨z, hz, hlt⟩ := hvis v hv
          exact ⟨z, hz, by omega⟩
      rw [hgo, ih hy (hcy.trans hc) hvis' (by omega), mem_cons]
      constructor
      · rintro ((rfl | hv) | hr)
        · exact .inr .refl
        · exact .inl hv
        · exact .inr (.head hstep hr)
      · rintro (hv | hr)
        · exact .inl (.inr hv)
        · rcases hr.cases_head with rfl | ⟨q, hq, hr⟩
          · exact .inl (.inl rfl)
          · cases hlink.symm.trans (hprev q hq)
            exact .inr hr
    · -- a predecessor that is not held or on another chain is refused in the next turn
      have hstop : walkBack r.lookup chain (steps + 1) visited h = h :: visited := by
        obtain ⟨n, rfl⟩ : ∃ n, steps = n + 1 := ⟨steps - 1, by omega⟩
        cases hp : x.prevHash with
        | none => simp [walkBack, hx, hc, hnew, hp]
        | some p =>
          cases hy : r.lookup p with
          | none => simp [walkBack, hx, hc, hnew, hp, hy]
          | some y =>
            have hother : y.seq + 1 = x.seq → y.coordinate ≠ chain := fun hseq hcy =>
              hb ⟨p, x, y, hx, hy, hp, hcy.trans hc.symm, hseq⟩
            by_cases hseq : y.seq + 1 = x.seq
            · simp [walkBack, hx, hc, hnew, hp, hy, hseq, hother hseq]
            · simp [walkBack, hx, hc, hnew, hp, hy, hseq]
      rw [hstop, mem_cons, or_comm]
      refine or_congr_right ⟨fun e => e ▸ .refl, fun hr => ?_⟩
      rcases hr.cases_head with rfl | ⟨c, hc, -⟩
      · rfl
      · exact absurd ⟨c, hc⟩ hb

theorem highestPin_spec (h : r.highestPin chain = some pin) :
    pin.coordinate = chain ∧ r.admits pin = true := by
  have hmem := mem_of_getLast? h
  rw [mem_sorted, mem_filter, decide_eq_true_eq] at hmem
  exact hmem.2

theorem mem_pinnedBranch (h : r.highestPin chain = some pin) :
    k ∈ r.pinnedBranch chain ↔ ReflTransGen r.Behind pin.watermark k := by
  obtain ⟨x, hx, -⟩ := r.names pin (highestPin_spec h).2
  simp only [pinnedBranch, h, hx, Finset.mem_insert, mem_toFinset]
  rw [mem_walkBack hx rfl (by simp) (le_refl _)]
  constructor
  · rintro (rfl | hv | hr)
    · exact .refl
    · exact absurd hv not_mem_nil
    · exact hr
  · exact fun hr => .inr (.inr hr)

theorem pinned_child_unique (hh : r.Child chain parent slot h) (hk : r.Child chain parent slot k)
    (hph : h ∈ r.pinnedBranch chain) (hpk : k ∈ r.pinnedBranch chain) : h = k := by
  cases hpin : r.highestPin chain with
  | none => simp [pinnedBranch, hpin] at hph
  | some pin =>
    rw [mem_pinnedBranch hpin] at hph hpk
    exact behind_unique hph hpk (Child.lookup hh) (Child.lookup hk) rfl

/-! ## 4. The winners -/

theorem winner_iff : r.winner chain parent slot = some h ↔ r.Wins chain parent slot h := by
  unfold winner Wins
  cases hf : (r.atSlot chain parent slot).find? (· ∈ r.pinnedBranch chain) with
  | some k =>
    have hk := mem_atSlot.mp (mem_of_find?_eq_some hf)
    have hpk : k ∈ r.pinnedBranch chain := by simpa using find?_some hf
    rw [Option.some_or, Option.some.injEq]
    constructor
    · rintro rfl
      exact ⟨hk, .inl hpk⟩
    · rintro ⟨hh, hph | hall⟩
      · exact pinned_child_unique hk hh hpk hph
      · exact absurd hpk (hall k hk).1
  | none =>
    have hnone : ∀ k, r.Child chain parent slot k → k ∉ r.pinnedBranch chain := fun k hk => by
      simpa using find?_eq_none.mp hf k (mem_atSlot.mpr hk)
    rw [Option.none_or, min?_eq_some_iff]
    simp only [mem_atSlot]
    constructor
    · exact fun ⟨hh, hmin⟩ => ⟨hh, .inr fun k hk => ⟨hnone k hk, hmin k hk⟩⟩
    · rintro ⟨hh, hph | hall⟩
      · exact absurd hph (hnone h hh)
      · exact ⟨hh, fun k hk => (hall k hk).2⟩

theorem Selected.unique (hh : r.Selected chain slot h) (hk : r.Selected chain slot k) : h = k := by
  induction hh generalizing k with
  | root hw =>
    cases hk with
    | root hw' => exact Option.some.inj ((winner_iff.mpr hw).symm.trans (winner_iff.mpr hw'))
  | next _ hw ih =>
    cases hk with
    | next hp hw' =>
      cases ih hp
      exact Option.some.inj ((winner_iff.mpr hw).symm.trans (winner_iff.mpr hw'))

theorem Selected.rooted (hs : r.Selected chain slot h) : r.Rooted chain slot h := by
  induction hs with
  | root hw => exact .root hw.1
  | next _ hw ih => exact .next ih hw.1

omit [DecidableEq κ] in
theorem Rooted.child (hr : r.Rooted chain slot h) : ∃ parent, r.Child chain parent slot h := by
  cases hr with
  | root hc => exact ⟨_, hc⟩
  | next _ hc => exact ⟨_, hc⟩

omit [DecidableEq κ] in
theorem Rooted.slot_lt (hr : r.Rooted chain slot h) : slot < r.candidates.length := by
  have hall : ∀ i ≤ slot, ∃ c ∈ r.candidates, c.header.seq = i := by
    induction hr with
    | root hc =>
      obtain ⟨-, c, hc, -, hx⟩ := hc
      exact fun i hi => ⟨c, hc, by rw [hx]; show 0 = i; omega⟩
    | next _ hc ih =>
      obtain ⟨-, c, hc, -, hx⟩ := hc
      intro i hi
      rcases Nat.lt_or_ge _ i with hlt | hge
      · exact ⟨c, hc, by rw [hx]; exact Nat.le_antisymm hlt hi⟩
      · exact ih i hge
  have hsub : Finset.range (slot + 1) ⊆ (r.candidates.map (·.header.seq)).toFinset := by
    intro i hi
    obtain ⟨c, hc, hs⟩ := hall i (Nat.lt_succ_iff.mp (Finset.mem_range.mp hi))
    exact mem_toFinset.mpr (mem_map.mpr ⟨c, hc, hs⟩)
  have hcard := (Finset.card_le_card hsub).trans (toFinset_card_le _)
  rw [Finset.card_range, length_map] at hcard
  omega

theorem selected_of_mem_winners (hstart : ∀ w, r.Wins chain parent slot w → r.Selected chain slot w)
    (hm : h ∈ r.winners chain bound slot parent) : ∃ n, r.Selected chain n h := by
  induction bound generalizing slot parent with
  | zero => exact absurd hm not_mem_nil
  | succ bound ih =>
    rw [winners] at hm
    cases hw : r.winner chain parent slot with
    | none => rw [hw] at hm; exact absurd hm not_mem_nil
    | some w =>
      rw [hw] at hm
      have hsel := hstart w (winner_iff.mp hw)
      rcases mem_cons.mp hm with rfl | hm
      · exact ⟨slot, hsel⟩
      · exact ih (fun v hv => .next hsel hv) hm

theorem Selected.split (hs : r.Selected chain slot h) (bound : Nat) :
    ∃ pre, r.winners chain (slot + 1 + bound) 0 none =
      pre ++ h :: r.winners chain bound (slot + 1) (some h) := by
  induction hs generalizing bound with
  | root hw =>
    refine ⟨[], ?_⟩
    rw [show 0 + 1 + bound = bound + 1 by omega, winners, winner_iff.mpr hw]
    rfl
  | @next slot p h _ hw ih =>
    obtain ⟨pre, hpre⟩ := ih (bound + 1)
    refine ⟨pre ++ [p], ?_⟩
    rw [show slot + 1 + 1 + bound = slot + 1 + (bound + 1) by omega, hpre, winners, winner_iff.mpr hw]
    simp

theorem mem_winners :
    h ∈ r.winners chain r.candidates.length 0 none ↔ ∃ slot, r.Selected chain slot h := by
  constructor
  · exact selected_of_mem_winners fun w hw => .root hw
  · rintro ⟨slot, hs⟩
    have hlt := Rooted.slot_lt (Selected.rooted hs)
    obtain ⟨pre, hpre⟩ := Selected.split hs (r.candidates.length - (slot + 1))
    rw [Nat.add_sub_cancel' hlt] at hpre
    rw [hpre]
    simp

/-! ## 5. The rooted entries -/

theorem foldl_rootStep (slot : Nat) (kids : List EntryHash)
    (s : List (Option EntryHash × Nat) × Finset EntryHash) :
    let t := kids.foldl (Refold.rootStep slot) s
    t.2 = s.2 ∪ kids.toFinset ∧
    (∀ f, f ∈ t.1 ↔ f ∈ s.1 ∨ ∃ h ∈ kids, h ∉ s.2 ∧ slot + 1 < slotCount ∧ f = (some h, slot + 1)) ∧
    ∀ all : Finset EntryHash, (∀ h ∈ kids, h ∈ all) →
      t.1.length + (all \ t.2).card ≤ s.1.length + (all \ s.2).card := by
  induction kids generalizing s with
  | nil => simp
  | cons h kids ih =>
    obtain ⟨h2, h1, hcard⟩ := ih (Refold.rootStep slot s h)
    rw [foldl_cons]
    by_cases hm : h ∈ s.2
    · have hstep : Refold.rootStep slot s h = s := if_pos hm
      rw [hstep] at h1 h2 hcard ⊢
      refine ⟨?_, fun f => ?_, fun all hall => hcard all (forall_mem_cons.mp hall).2⟩
      · rw [h2, toFinset_cons, Finset.union_insert, Finset.insert_eq_of_mem]
        exact Finset.mem_union_left _ hm
      · rw [h1, exists_mem_cons_iff]
        simp [hm]
    · have hstep : Refold.rootStep slot s h =
          (if slot + 1 < slotCount then (some h, slot + 1) :: s.1 else s.1, insert h s.2) := if_neg hm
      rw [hstep] at h1 h2 hcard ⊢
      refine ⟨?_, fun f => ?_, fun all hall => ?_⟩
      · rw [h2, toFinset_cons, Finset.union_insert, Finset.insert_union]
      · rw [h1, exists_mem_cons_iff]
        by_cases hb : slot + 1 < slotCount
        · simp only [hb, if_true, mem_cons, Finset.mem_insert, not_or, true_and, hm,
            not_false_eq_true]
          constructor
          · rintro ((rfl | hf) | ⟨k, hk, ⟨-, hnew⟩, rfl⟩)
            · exact .inr (.inl rfl)
            · exact .inl hf
            · exact .inr (.inr ⟨k, hk, hnew, rfl⟩)
          · rintro (hf | rfl | ⟨k, hk, hnew, rfl⟩)
            · exact .inl (.inr hf)
            · exact .inl (.inl rfl)
            · by_cases hkh : k = h
              · exact .inl (.inl (by rw [hkh]))
              · exact .inr ⟨k, hk, ⟨hkh, hnew⟩, rfl⟩
        · simp [hb]
      · refine (hcard all (forall_mem_cons.mp hall).2).trans ?_
        have hmem : h ∈ all \ s.2 := Finset.mem_sdiff.mpr ⟨hall h mem_cons_self, hm⟩
        have hless : (all \ insert h s.2).card + 1 = (all \ s.2).card := by
          rw [Finset.sdiff_insert, Finset.card_erase_add_one hmem]
        have hlen : (if slot + 1 < slotCount then (some h, slot + 1) :: s.1 else s.1).length ≤
            s.1.length + 1 := by
          split_ifs <;> simp
        show (if slot + 1 < slotCount then (some h, slot + 1) :: s.1 else s.1).length +
          (all \ insert h s.2).card ≤ _
        omega

/-- The frontier has root slots and slots above rooted entries, and all whose children are not taken
    in. -/
structure Rooting (r : Refold κ) (chain : κ)
    (s : List (Option EntryHash × Nat) × Finset EntryHash) : Prop where
  rooted : ∀ h ∈ s.2, ∃ n, r.Rooted chain n h
  frontier : ∀ f ∈ s.1, f = (none, 0) ∨ ∃ n p, f = (some p, n + 1) ∧ r.Rooted chain n p
  roots : (none, 0) ∈ s.1 ∨ ∀ h, r.Child chain none 0 h → h ∈ s.2
  above : ∀ n p, r.Rooted chain n p → p ∈ s.2 →
    (some p, n + 1) ∈ s.1 ∨ ∀ h, r.Child chain (some p) (n + 1) h → h ∈ s.2

theorem rootTurn_inv {s t : List (Option EntryHash × Nat) × Finset EntryHash}
    (hs : Rooting r chain s) (h : r.rootTurn chain s = .inl t) : Rooting r chain t := by
  obtain ⟨frontier, rooted⟩ := s
  cases frontier with
  | nil => cases h
  | cons f frontier =>
    obtain ⟨parent, slot⟩ := f
    obtain ⟨h2, h1, -⟩ := foldl_rootStep slot (r.atSlot chain parent slot) (frontier, rooted)
    cases h
    simp only at h1 h2
    have hkid : ∀ k, r.Child chain parent slot k → r.Rooted chain slot k := by
      intro k hk
      rcases hs.frontier _ mem_cons_self with heq | ⟨n, p, heq, hp⟩ <;> cases heq
      · exact .root hk
      · exact .next hp hk
    have hmem : ∀ k, k ∈ ((r.atSlot chain parent slot).foldl (rootStep slot)
        (frontier, rooted)).2 ↔ k ∈ rooted ∨ r.Child chain parent slot k := by
      intro k
      rw [h2, Finset.mem_union, mem_toFinset, mem_atSlot]
    -- what was on the frontier stays there or is the place whose children are taken in now
    have hkeep : ∀ q m, (q, m) ∈ (parent, slot) :: frontier ∨ (∀ k, r.Child chain q m k → k ∈ rooted) →
        (q, m) ∈ ((r.atSlot chain parent slot).foldl (rootStep slot) (frontier, rooted)).1 ∨
        ∀ k, r.Child chain q m k →
          k ∈ ((r.atSlot chain parent slot).foldl (rootStep slot) (frontier, rooted)).2 := by
      rintro q m (hf | hall)
      · rcases mem_cons.mp hf with heq | hf
        · cases heq
          exact .inr fun k hk => (hmem k).mpr (.inr hk)
        · exact .inl ((h1 _).mpr (.inl hf))
      · exact .inr fun k hk => (hmem k).mpr (.inl (hall k hk))
    refine ⟨fun k hk => ?_, fun f hf => ?_, hkeep _ _ hs.roots, fun n p hp hk => ?_⟩
    · rcases (hmem k).mp hk with hk | hk
      · exact hs.rooted k hk
      · exact ⟨slot, hkid k hk⟩
    · rcases (h1 f).mp hf with hf | ⟨k, hk, -, -, rfl⟩
      · exact hs.frontier f (mem_cons_of_mem _ hf)
      · exact .inr ⟨slot, k, rfl, hkid k (mem_atSlot.mp hk)⟩
    · by_cases hold : p ∈ rooted
      · exact hkeep _ _ (hs.above n p hp hold)
      · have hc : r.Child chain parent slot p := ((hmem p).mp hk).resolve_left hold
        obtain ⟨q, hq⟩ := Rooted.child hp
        have hn : n = slot := congrArg ChainLink.seq
          (Option.some.inj ((Child.lookup hq).symm.trans (Child.lookup hc)))
        by_cases hb : slot + 1 < slotCount
        · exact .inl ((h1 _).mpr (.inr ⟨p, mem_atSlot.mpr hc, hold, hb, by rw [hn]⟩))
        -- no entry stands above the last slot
        refine .inr fun k hk => absurd ?_ hb
        obtain ⟨-, c, hc, -, hx⟩ := hk
        have := r.slots c hc
        rw [hx, hn] at this
        exact this

theorem mem_collectRooted : h ∈ r.collectRooted chain ↔ ∃ n, r.Rooted chain n h := by
  have hsome : (loop (r.rootTurn chain) (r.candidates.length + 2) ([(none, 0)], ∅)).isSome := by
    refine loop_isSome (fun _ => True)
      (fun s => s.1.length + ((r.candidates.map (·.entryHash)).toFinset \ s.2).card)
      (fun s t _ ht => ⟨trivial, ?_⟩) trivial ?_
    · obtain ⟨frontier, rooted⟩ := s
      cases frontier with
      | nil => cases ht
      | cons f frontier =>
        cases ht
        have hle := (foldl_rootStep f.2 (r.atSlot chain f.1 f.2) (frontier, rooted)).2.2
          (r.candidates.map (·.entryHash)).toFinset fun k hk => by
            obtain ⟨-, c, hc, rfl, -⟩ := mem_atSlot.mp hk
            exact mem_toFinset.mpr (mem_map_of_mem hc)
        simp only [length_cons] at hle ⊢
        omega
    · have hcard := toFinset_card_le (r.candidates.map (·.entryHash))
      rw [length_map] at hcard
      simp only [length_singleton, Finset.sdiff_empty]
      omega
  obtain ⟨out, hout⟩ := Option.isSome_iff_exists.mp hsome
  have hstart : Rooting r chain ([(none, 0)], ∅) :=
    ⟨by simp, by simp, .inl mem_cons_self, by simp⟩
  obtain ⟨⟨frontier, rooted⟩, hs, hend⟩ :=
    loop_rule (Rooting r chain) (fun s t => rootTurn_inv) hstart hout
  cases frontier with
  | cons f frontier => cases hend
  | nil =>
    cases hend
    have hset : r.collectRooted chain = rooted := by
      unfold collectRooted
      rw [hout]
      rfl
    rw [hset]
    refine ⟨hs.rooted h, ?_⟩
    rintro ⟨n, hr⟩
    clear hout
    induction hr with
    | root hc => exact (hs.roots.resolve_left not_mem_nil) _ hc
    | next hp hc ih => exact ((hs.above _ _ hp ih).resolve_left not_mem_nil) _ hc

/-! ## 6. The selection -/

omit [DecidableEq κ] in
theorem mem_chains_of_child (hc : r.Child chain parent slot h) : chain ∈ r.chains := by
  obtain ⟨he, c, hc, rfl, hx⟩ := hc
  refine mem_map.mpr ⟨c, mem_filter.mpr ⟨hc, by simpa using he⟩, by rw [hx]⟩

theorem mem_accepted :
    h ∈ r.selectAcceptedBranch.accepted ↔ ∃ chain slot, r.Selected chain slot h := by
  simp only [selectAcceptedBranch, mem_toFinset, mem_flatMap, mem_winners]
  constructor
  · rintro ⟨chain, -, slot, hs⟩
    exact ⟨chain, slot, hs⟩
  · rintro ⟨chain, slot, hs⟩
    obtain ⟨parent, hc⟩ := Rooted.child (Selected.rooted hs)
    exact ⟨chain, mem_chains_of_child hc, slot, hs⟩

theorem mem_forked : h ∈ r.selectAcceptedBranch.forked ↔
    (∃ chain slot, r.Rooted chain slot h) ∧ h ∉ r.selectAcceptedBranch.accepted := by
  have hunion : ∀ (l : List κ) (s : Finset EntryHash),
      h ∈ l.foldl (fun s chain => s ∪ r.collectRooted chain) s ↔
        h ∈ s ∨ ∃ chain ∈ l, ∃ slot, r.Rooted chain slot h := by
    intro l
    induction l with
    | nil => simp
    | cons chain l ih =>
      intro s
      rw [foldl_cons, ih, Finset.mem_union, mem_collectRooted, exists_mem_cons_iff, or_assoc]
  simp only [Refold.selectAcceptedBranch, Finset.mem_sdiff, hunion]
  refine and_congr_left fun _ => ⟨?_, ?_⟩
  · rintro (h | ⟨chain, -, slot, hs⟩)
    · exact absurd h (Finset.notMem_empty _)
    · exact ⟨chain, slot, hs⟩
  · rintro ⟨chain, slot, hs⟩
    obtain ⟨parent, hc⟩ := Rooted.child hs
    exact .inr ⟨chain, mem_chains_of_child hc, slot, hs⟩

theorem selected_of_pinned (hpin : r.highestPin chain = some pin)
    (hall : ∀ k, ReflTransGen r.Behind pin.watermark k →
      k ∈ r.eligible ∧ ∃ c ∈ r.candidates, c.entryHash = k)
    (ho : ReflTransGen r.Behind pin.watermark o) (hy : r.lookup o = some ⟨chain, 0, none⟩)
    (hk : ReflTransGen r.Behind pin.watermark k) (hx : r.lookup k = some x) (hn : x.seq = n) :
    r.Selected chain n k := by
  obtain ⟨w, hw, hwc, -⟩ := r.names pin (highestPin_spec hpin).2
  have hc : x.coordinate = chain :=
    (slot_of_behind hk hw hx).1.trans (hwc.trans (highestPin_spec hpin).1)
  have hwins : r.Wins chain x.prevHash n k := by
    obtain ⟨he, c, hc', rfl⟩ := hall k hk
    refine ⟨⟨he, c, hc', rfl, ?_⟩, .inl ((mem_pinnedBranch hpin).mpr hk)⟩
    rw [← hc, ← hn]
    exact Option.some.inj ((r.held c hc').symm.trans hx)
  induction n generalizing k x with
  | zero =>
    cases behind_unique hk ho hx hy hn
    cases hx.symm.trans hy
    exact .root hwins
  | succ n ih =>
    -- the entry is not the origin, so it has a predecessor on the branch
    have hko : ReflTransGen r.Behind k o := by
      rcases behind_total hk ho with hr | hr
      · exact hr
      · have hle : x.seq ≤ 0 := (slot_of_behind hr hy hx).2
        omega
    rcases hko.cases_head with rfl | ⟨p, hp, -⟩
    · cases hx.symm.trans hy
      cases hn
    have hkp := hk.tail hp
    obtain ⟨x', z, hx', hz, hprev, hzc, hs⟩ := hp
    cases hx.symm.trans hx'
    have hzn : z.seq = n := by omega
    rw [hprev] at hwins
    refine .next (ih hkp hz hzn (hzc.trans hc) ?_) hwins
    obtain ⟨he, c, hc', rfl⟩ := hall p hkp
    refine ⟨⟨he, c, hc', rfl, ?_⟩, .inl ((mem_pinnedBranch hpin).mpr hkp)⟩
    rw [← hc, ← hzc, ← hzn]
    exact Option.some.inj ((r.held c hc').symm.trans hz)

end Facts

/-- **BRANCH SELECTION, EXACTLY.** Whatever the order and the repetitions of the candidates:
    accepted are the chains of winners from slot 0, one entry at a slot; forked are those linked to
    slot 0 through eligible entries and not accepted; one not so linked is neither; and a branch
    behind the highest admitted watermark that is eligible down to slot 0 is accepted. -/
theorem selectAcceptedBranch_exact (r : Refold κ) :
    (∀ h, h ∈ r.selectAcceptedBranch.accepted ↔ ∃ chain slot, r.Selected chain slot h) ∧
    (∀ chain slot h k, r.Selected chain slot h → r.Selected chain slot k → h = k) ∧
    (∀ h, h ∈ r.selectAcceptedBranch.forked ↔
      (∃ chain slot, r.Rooted chain slot h) ∧ h ∉ r.selectAcceptedBranch.accepted) ∧
    (∀ h, (¬ ∃ chain slot, r.Rooted chain slot h) →
      h ∉ r.selectAcceptedBranch.accepted ∧ h ∉ r.selectAcceptedBranch.forked) ∧
    ∀ chain pin, r.highestPin chain = some pin →
      (∀ p ∈ r.pins, p.coordinate = chain → r.admits p = true →
        toLex (p.seq, p.watermark) ≤ toLex (pin.seq, pin.watermark)) ∧
      ((∀ k, ReflTransGen r.Behind pin.watermark k →
          k ∈ r.eligible ∧ ∃ c ∈ r.candidates, c.entryHash = k) →
        (∃ o, ReflTransGen r.Behind pin.watermark o ∧ r.lookup o = some ⟨chain, 0, none⟩) →
        ∀ k, ReflTransGen r.Behind pin.watermark k → k ∈ r.selectAcceptedBranch.accepted) := by
  refine ⟨fun h => mem_accepted, fun _ _ _ _ => Selected.unique, fun h => mem_forked, fun h hno => ?_,
    fun chain pin hpin => ⟨fun p hp hc ha => ?_, ?_⟩⟩
  · refine ⟨fun ha => hno ?_, fun hf => hno (mem_forked.mp hf).1⟩
    obtain ⟨chain, slot, hs⟩ := mem_accepted.mp ha
    exact ⟨chain, slot, Selected.rooted hs⟩
  · have hmem : p ∈ sorted (fun p : BranchPin κ => toLex (p.seq, p.watermark))
        (r.pins.filter fun p => p.coordinate = chain ∧ r.admits p) :=
      (mem_sorted _).mpr (mem_filter.mpr ⟨hp, decide_eq_true ⟨hc, ha⟩⟩)
    obtain ⟨l, hl⟩ := getLast?_eq_some_iff.mp hpin
    have hpair := pairwise_sorted (fun p : BranchPin κ => toLex (p.seq, p.watermark))
      (r.pins.filter fun p => p.coordinate = chain ∧ r.admits p)
    rw [hl] at hmem hpair
    rcases mem_append.mp hmem with hm | hm
    · exact (pairwise_append.mp hpair).2.2 p hm pin mem_cons_self
    · rw [mem_singleton.mp hm]
  · rintro hall ⟨o, ho, hy⟩ k hk
    obtain ⟨-, c, hc, rfl⟩ := hall k hk
    exact mem_accepted.mpr ⟨chain, _, selected_of_pinned hpin hall ho hy hk (r.held c hc) rfl⟩

/-- A chain that forks after 10, with the tip 12 pinned, and an entry 13 without its predecessor. -/
def pinnedFork : Refold Nat where
  candidates := [⟨10, 0, 0, none⟩, ⟨11, 0, 1, some 10⟩, ⟨12, 0, 1, some 10⟩, ⟨13, 0, 2, some 99⟩]
  eligible := {10, 11, 12, 13}
  lookup h := if h = 10 then some ⟨0, 0, none⟩ else if h = 11 ∨ h = 12 then some ⟨0, 1, some 10⟩
    else if h = 13 then some ⟨0, 2, some 99⟩ else none
  pins := [⟨0, 1, 12⟩]
  admits p := decide (p.watermark = 12 ∧ p.coordinate = 0 ∧ p.seq = 1)
  held := by decide +kernel
  slots := by decide +kernel
  names := by
    rintro ⟨chain, seq, w⟩ hp
    obtain ⟨rfl, rfl, rfl⟩ := of_decide_eq_true hp
    exact ⟨_, rfl, rfl, rfl⟩

/-- The pinned branch is accepted, the other tip is forked, and the last entry is neither. -/
theorem selectAcceptedBranch_exact_fork :
    (∃ chain slot, pinnedFork.Selected chain slot 12) ∧
    (∀ k, ReflTransGen pinnedFork.Behind 12 k → k ∈ pinnedFork.selectAcceptedBranch.accepted) ∧
    (∃ chain slot, pinnedFork.Rooted chain slot 11) ∧
    ¬ ∃ chain slot, pinnedFork.Rooted chain slot 13 := by
  obtain ⟨haccepted, -, hforked, -, hpinned⟩ := selectAcceptedBranch_exact pinnedFork
  have hall : ∀ k, ReflTransGen pinnedFork.Behind 12 k →
      k ∈ pinnedFork.eligible ∧ ∃ c ∈ pinnedFork.candidates, c.entryHash = k := by
    intro k hk
    have hheld : (pinnedFork.lookup k).isSome := by
      rcases hk.cases_tail with rfl | ⟨_, -, _, y, -, hy, -⟩
      · rfl
      · rw [hy]
        rfl
    simp only [pinnedFork] at hheld
    split_ifs at hheld with h10 h11 h13
    · exact h10 ▸ by decide +kernel
    · rcases h11 with rfl | rfl <;> decide +kernel
    · exact h13 ▸ by decide +kernel
    · cases hheld
  have hroot : ReflTransGen pinnedFork.Behind 12 10 := .single ⟨_, _, rfl, rfl, rfl, rfl, rfl⟩
  refine ⟨(haccepted 12).mp (by decide +kernel), ?_, ((hforked 11).mp (by decide +kernel)).1, fun h => ?_⟩
  · exact (hpinned 0 ⟨0, 1, 12⟩ (by decide +kernel)).2 hall ⟨10, hroot, rfl⟩
  · exact absurd ((hforked 13).mpr ⟨h, by decide +kernel⟩) (by decide +kernel)

end RagRat.Branch
