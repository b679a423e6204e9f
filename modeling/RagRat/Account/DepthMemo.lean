/-
  File:      RagRat/Account/DepthMemo.lean
  Subject:   THE TABLE OF INCARNATION DEPTHS: a walk along the citations that keeps its answers, also
             those that there is none.

  * `Reaches` -- the citations lead to the genesis incarnation;
  * `Walking` -- a walk so far: what the table says besides the incarnations on the way is exact;
  * `incarnationDepthMemo_exact` -- every answer is, whatever was asked before;
    `incarnationDepth_iff` -- and so is the depth without the table.
-/
import Mathlib.Data.List.Chain
import Mathlib.Logic.Relation
import RagRat.Account.Effects
import RagRat.Lib.Loop

namespace RagRat.Account.Incarnations

open Function List Relation
open Lib.Loop

/-! ## 1. The walk -/

/-- The answers so far. The incarnations on the way of a walk are marked as having no depth. -/
abbrev DepthTable := OwnerId → Option (Option Nat)

/-- A walk: the table, the way so far and where it stands. -/
structure DepthWalk where
  depth : DepthTable
  /-- the incarnations on the way, the last one first -/
  chain : List OwnerId
  node : OwnerId

/-- The incarnation the mint of another cites, or the depth where the citations end. -/
def cited (inc : Incarnations) (o : OwnerId) : Option Nat ⊕ OwnerId :=
  match inc.candidate o with
  | none => .inl none
  | some mint =>
    if o = inc.genesisOwnerId then .inl (some 0)
    else
      match mint.header.authorityRef with
      | none => .inl none
      | some parent => .inr parent

/-- One step: answer from the table, or mark the incarnation and go on to the one it cites. -/
def depthTurn (inc : Incarnations) (s : DepthWalk) : DepthWalk ⊕ (DepthWalk × Option Nat) :=
  match s.depth s.node with
  | some cached => .inr (s, cached)
  | none =>
    let depth := update s.depth s.node (some none)
    match inc.cited s.node with
    | .inl base => .inr ({ s with depth }, base)
    | .inr parent => .inl ⟨depth, s.node :: s.chain, parent⟩

/-- Each link of the chain is one deeper than the one it cites. -/
def assignBack : List OwnerId → Option Nat → DepthTable → DepthTable
  | [], _, depth => depth
  | link :: chain, d, depth =>
    let d := d.map (· + 1)
    assignBack chain d (update depth link (some d))

/-- The depth of an incarnation, and the table with what was found on the way. -/
def incarnationDepthMemo (inc : Incarnations) (depth : DepthTable) (o : OwnerId) :
    Option (Option Nat × DepthTable) :=
  match depth o with
  | some cached => some (cached, depth)
  | none =>
    (loop (depthTurn inc) (inc.candidates.length + 1) ⟨depth, [], o⟩).map fun (s, base) =>
      let depth := assignBack s.chain base (update s.depth s.node (some base))
      ((depth o).join, depth)

/-! ## 2. What it answers -/

/-- The `authority_ref` of the mints leads to the genesis incarnation, after `d` steps. -/
inductive Reaches (inc : Incarnations) : OwnerId → Nat → Prop where
  | genesis {mint : Candidate} (h : inc.candidate inc.genesisOwnerId = some mint) :
      Reaches inc inc.genesisOwnerId 0
  | cites {o parent : OwnerId} {mint : Candidate} {d : Nat} (h : inc.candidate o = some mint)
      (hne : o ≠ inc.genesisOwnerId) (hp : mint.header.authorityRef = some parent)
      (hd : Reaches inc parent d) : Reaches inc o (d + 1)

/-- The answer is the number of citations to the genesis. -/
def Exact (inc : Incarnations) (o : OwnerId) (v : Option Nat) : Prop :=
  ∀ d, v = some d ↔ inc.Reaches o d

/-- The mint of the second cites the first. -/
def Cites (inc : Incarnations) (p o : OwnerId) : Prop := inc.cited o = .inr p

variable {inc : Incarnations} {o p node x : OwnerId} {d : Nat} {v base : Option Nat}
  {chain : List OwnerId} {depth : DepthTable} {s s' t : DepthWalk}

theorem reaches_iff : inc.Reaches o d ↔ inc.cited o = .inl (some d) ∨
    ∃ p d', inc.cited o = .inr p ∧ inc.Reaches p d' ∧ d' + 1 = d := by
  constructor
  · intro h
    cases h with
    | genesis h => exact .inl (by simp [cited, h])
    | cites h hne hp hd => exact .inr ⟨_, _, by simp [cited, h, hne, hp], hd, rfl⟩
  · unfold cited
    split
    · simp
    rename_i mint hmint
    split
    · rename_i ho
      subst ho
      rintro (h | ⟨p, d', h, -⟩)
      · cases h
        exact .genesis hmint
      · cases h
    · rename_i hne
      split
      · simp
      · rename_i parent hp
        rintro (h | ⟨p, d', h, hd, rfl⟩)
        · cases h
        · cases h
          exact .cites hmint hne hp hd

theorem exact_of_inl (h : inc.cited o = .inl v) : inc.Exact o v := by
  intro d
  rw [reaches_iff, h]
  simp

theorem Exact.below (hv : inc.Exact p v) (h : inc.cited o = .inr p) :
    inc.Exact o (v.map (· + 1)) := by
  intro d
  rw [Option.map_eq_some_iff, reaches_iff, h]
  simp [hv _]

theorem Reaches.acc (h : inc.Reaches o d) : Acc inc.Cites o := by
  induction h with
  | genesis h => exact ⟨_, fun p hp => by simp [Cites, cited, h] at hp⟩
  | cites h hne hp _ ih =>
    refine ⟨_, fun p hcites => ?_⟩
    simp only [Cites, cited, h, if_neg hne, hp] at hcites
    cases hcites
    exact ih

theorem not_reaches (hchain : (node :: chain).IsChain inc.Cites) (hnode : node ∈ chain) :
    ¬ inc.Reaches node d := by
  intro hd
  have hback : TransGen inc.Cites node node := (hchain.imp fun _ _ => .single).rel_cons hnode
  have hacc := hd.acc.transGen
  induction hacc with
  | intro x _ ih => exact ih x hback hchain hnode hd hback

/-! ## 3. A walk -/

/-- What the table says of the other incarnations is exact. -/
def ExactBut (inc : Incarnations) (but : List OwnerId) (depth : DepthTable) : Prop :=
  ∀ x v, depth x = some v → x ∉ but → inc.Exact x v

theorem ExactBut.update (h : inc.ExactBut (o :: chain) depth) (hv : inc.Exact o v) :
    inc.ExactBut chain (update depth o (some v)) := by
  intro x w hw hx
  by_cases hne : x = o
  · subst hne
    rw [update_self] at hw
    cases hw
    exact hv
  · rw [update_of_ne hne] at hw
    exact h x w hw (not_mem_cons_of_ne_of_not_mem hne hx)

theorem ExactBut.mark (h : inc.ExactBut chain depth) :
    inc.ExactBut (o :: chain) (Function.update depth o (some v)) := by
  intro x w hw hx
  obtain ⟨hne, hx⟩ := not_or.mp (mem_cons.not.mp hx)
  rw [update_of_ne hne] at hw
  exact h x w hw hx

/-- A walk from `o`: the way is cited and marked, and the rest of the table is exact. -/
structure Walking (inc : Incarnations) (o : OwnerId) (s : DepthWalk) : Prop where
  cited : (s.node :: s.chain).IsChain inc.Cites
  start : o ∈ s.node :: s.chain
  marked : ∀ x ∈ s.chain, s.depth x = some none
  exact : inc.ExactBut s.chain s.depth

theorem Walking.turn (h : Walking inc o s) (ht : depthTurn inc s = .inl s') : Walking inc o s' := by
  unfold depthTurn at ht
  split at ht
  · cases ht
  rename_i hnone
  split at ht <;> cases ht
  rename_i hcited
  refine ⟨isChain_cons_cons.mpr ⟨hcited, h.cited⟩, mem_cons_of_mem _ h.start, fun x hx => ?_,
    h.exact.mark⟩
  by_cases hne : x = s.node
  · exact hne ▸ update_self ..
  · exact (update_of_ne hne ..).trans (h.marked x ((mem_cons.mp hx).resolve_left hne))

theorem Walking.stops (h : Walking inc o s) (ht : depthTurn inc s = .inr (t, base)) :
    t.node = s.node ∧ t.chain = s.chain ∧ inc.Exact s.node base ∧
      inc.ExactBut (s.node :: s.chain) t.depth := by
  unfold depthTurn at ht
  split at ht
  · rename_i cached hcached
    cases ht
    refine ⟨rfl, rfl, ?_, fun x v hv hx => h.exact x v hv (not_mem_of_not_mem_cons hx)⟩
    by_cases hin : s.node ∈ s.chain
    · cases hcached.symm.trans (h.marked _ hin)
      exact fun d => iff_of_false nofun (not_reaches h.cited hin)
    · exact h.exact _ _ hcached hin
  · split at ht <;> cases ht
    exact ⟨rfl, rfl, exact_of_inl ‹_›, h.exact.mark⟩

theorem assignBack_exact (hchain : (node :: chain).IsChain inc.Cites) (hbase : inc.Exact node base)
    (h : inc.ExactBut chain depth) : inc.ExactBut [] (assignBack chain base depth) := by
  induction chain generalizing node base depth with
  | nil => exact h
  | cons link chain ih =>
    obtain ⟨hcited, hchain⟩ := isChain_cons_cons.mp hchain
    exact ih hchain (hbase.below hcited) (h.update (hbase.below hcited))

theorem assignBack_isSome (h : x ∈ chain ∨ (depth x).isSome) :
    (assignBack chain base depth x).isSome := by
  induction chain generalizing base depth with
  | nil => exact h.resolve_left not_mem_nil
  | cons link chain ih =>
    refine ih ?_
    by_cases hne : x = link
    · exact .inr (by simp [hne])
    · rw [update_of_ne hne]
      exact h.imp_left fun hx => (mem_cons.mp hx).resolve_left hne

/-! ## 4. Every question -/

/-- The mints that were not met yet. -/
def unmet (inc : Incarnations) (depth : DepthTable) : List Candidate :=
  inc.candidates.filter fun c => depth c.hash = none

theorem unmet_lt (h : depthTurn inc s = .inl s') :
    (inc.unmet s'.depth).length < (inc.unmet s.depth).length := by
  unfold depthTurn at h
  split at h
  · cases h
  rename_i hnone
  split at h <;> cases h
  rename_i hcited
  obtain ⟨mint, hmint⟩ : ∃ mint, inc.candidate s.node = some mint := by
    refine Option.ne_none_iff_exists'.mp fun hmint => ?_
    simp [Incarnations.cited, hmint] at hcited
  have hhash : mint.isMint = true ∧ mint.hash = s.node := by simpa using find?_some hmint
  have hfilter : inc.unmet (update s.depth s.node (some none)) =
      (inc.unmet s.depth).filter fun c => c.hash ≠ s.node := by
    rw [unmet, unmet, filter_filter]
    refine filter_congr fun c _ => ?_
    by_cases hc : c.hash = s.node <;> simp [hc]
  rw [hfilter, length_filter_lt_length_iff_exists]
  exact ⟨mint, mem_filter.mpr ⟨mem_of_find?_eq_some hmint, by simp [hhash.2, hnone]⟩,
    by simp [hhash.2]⟩

theorem incarnationDepthMemo_spec (h : inc.ExactBut [] depth) (o : OwnerId) :
    ∃ v depth', inc.incarnationDepthMemo depth o = some (v, depth') ∧ inc.Exact o v ∧
      inc.ExactBut [] depth' := by
  unfold incarnationDepthMemo
  split
  · rename_i cached hcached
    exact ⟨cached, depth, rfl, h o cached hcached not_mem_nil, h⟩
  have hstart : Walking inc o ⟨depth, [], o⟩ := ⟨.singleton _, mem_cons_self, by simp, h⟩
  obtain ⟨⟨t, base⟩, hrun⟩ := Option.isSome_iff_exists.mp (loop_isSome (Walking inc o)
    (fun s => (inc.unmet s.depth).length) (fun _ _ hs ht => ⟨hs.turn ht, unmet_lt ht⟩) hstart
    (Nat.lt_succ_of_le (length_filter_le ..)))
  obtain ⟨s, hs, hstop⟩ := loop_rule (Walking inc o) (fun _ _ hs ht => hs.turn ht) hstart hrun
  obtain ⟨hnode, hchain, hbase, hbut⟩ := hs.stops hstop
  have hexact := assignBack_exact hs.cited hbase (hbut.update hbase)
  have hsome : (assignBack s.chain base (update t.depth s.node (some base)) o).isSome :=
    assignBack_isSome ((mem_cons.mp hs.start).symm.imp_right fun ho => by simp [ho])
  obtain ⟨v, hv⟩ := Option.isSome_iff_exists.mp hsome
  simp only [hrun, Option.map_some, hnode, hchain, hv]
  exact ⟨v, _, rfl, hexact o v hv not_mem_nil, hexact⟩

/-- The table after these questions. -/
def tableAfter (inc : Incarnations) (asked : List OwnerId) : Option DepthTable :=
  asked.foldlM (fun depth o => (inc.incarnationDepthMemo depth o).map Prod.snd) fun _ => none

theorem tableAfter_exact (inc : Incarnations) (asked : List OwnerId) :
    ∃ depth, inc.tableAfter asked = some depth ∧ inc.ExactBut [] depth := by
  induction asked using reverseRecOn with
  | nil => exact ⟨_, rfl, nofun⟩
  | append_singleton asked o ih =>
    obtain ⟨depth, hrun, hexact⟩ := ih
    obtain ⟨v, depth', hask, -, hexact'⟩ := incarnationDepthMemo_spec hexact o
    refine ⟨depth', ?_, hexact'⟩
    rw [tableAfter, foldlM_append, ← tableAfter, hrun]
    simp [hask]

/-- **Every answer is exact**, whatever was asked before. -/
theorem incarnationDepthMemo_exact (inc : Incarnations) (asked : List OwnerId) (o : OwnerId) :
    ∃ depth answer depth', inc.tableAfter asked = some depth ∧
      inc.incarnationDepthMemo depth o = some (answer, depth') ∧
      ∀ d, answer = some d ↔ inc.Reaches o d := by
  obtain ⟨depth, hrun, hexact⟩ := inc.tableAfter_exact asked
  obtain ⟨answer, depth', hask, hanswer, -⟩ := incarnationDepthMemo_spec hexact o
  exact ⟨depth, answer, depth', hrun, hask, hanswer⟩

/-! ## 4. The depth without a table -/

theorem depthWithin_succ (n : Nat) : inc.depthWithin (n + 1) o =
    match inc.cited o with
    | .inl v => v
    | .inr p => (inc.depthWithin n p).map (· + 1) := by
  rw [depthWithin]
  unfold cited
  cases inc.candidate o with
  | none => rfl
  | some mint =>
    by_cases ho : o = inc.genesisOwnerId
    · simp [ho]
    · cases hp : mint.header.authorityRef <;> simp [ho, hp]

theorem depthWithin_reaches {n : Nat} (h : inc.depthWithin n o = some d) : inc.Reaches o d := by
  induction n generalizing o d with
  | zero => cases h
  | succ n ih =>
    rw [depthWithin_succ] at h
    rw [reaches_iff]
    cases hc : inc.cited o with
    | inl v => exact .inl (by rw [hc] at h; exact congrArg Sum.inl h)
    | inr p =>
      rw [hc] at h
      obtain ⟨d', hd', rfl⟩ := Option.map_eq_some_iff.mp h
      exact .inr ⟨p, d', rfl, ih hd', rfl⟩

theorem Reaches.depthWithin {n : Nat} (h : inc.Reaches o d) (hn : d < n) : inc.depthWithin n o = some d := by
  induction n generalizing o d with
  | zero => omega
  | succ n ih =>
    rw [depthWithin_succ]
    rcases reaches_iff.mp h with hc | ⟨p, d', hc, hd', rfl⟩
    · rw [hc]
    · rw [hc]
      simp [ih hd' (by omega)]

theorem Reaches.unique {d' : Nat} (h : inc.Reaches o d) (h' : inc.Reaches o d') : d = d' := by
  have hd := h.depthWithin (Nat.lt_succ_of_le (Nat.le_max_left d d'))
  rw [h'.depthWithin (Nat.lt_succ_of_le (Nat.le_max_right d d'))] at hd
  exact (Option.some.inj hd).symm

theorem Reaches.lt_length (h : inc.Reaches o d) : d < inc.candidates.length := by
  classical
  have hbelow : ∀ k ≤ d, ∃ mint ∈ inc.candidates, inc.Reaches mint.hash k := by
    induction h with
    | genesis h =>
      rintro k hk
      have hmint := find?_some h
      simp only [decide_eq_true_eq] at hmint
      obtain rfl : k = 0 := by omega
      exact ⟨_, mem_of_find?_eq_some h, hmint.2 ▸ .genesis h⟩
    | @cites o p mint d h hne hp hd ih =>
      rintro k hk
      rcases Nat.lt_or_ge d k with hlt | hle
      · have hmint := find?_some h
        simp only [decide_eq_true_eq] at hmint
        obtain rfl : k = d + 1 := by omega
        exact ⟨mint, mem_of_find?_eq_some h, hmint.2 ▸ .cites h hne hp hd⟩
      · exact ih k hle
  let depthOf : Candidate → Nat := fun c => if h : ∃ k, inc.Reaches c.hash k then h.choose else 0
  have hsub : range (d + 1) ⊆ inc.candidates.map depthOf := fun k hk => by
    obtain ⟨mint, hmem, hreach⟩ := hbelow k (Nat.lt_succ_iff.mp (mem_range.mp hk))
    have hex : ∃ k, inc.Reaches mint.hash k := ⟨k, hreach⟩
    refine mem_map.mpr ⟨mint, hmem, ?_⟩
    simp only [depthOf, dif_pos hex]
    exact hex.choose_spec.unique hreach
  have hlen := (subperm_of_subset nodup_range hsub).length_le
  rw [length_range, length_map] at hlen
  omega

/-- **The depth of an incarnation is where its citations lead**: following them for as many steps as there are
    candidates is enough. -/
theorem incarnationDepth_iff : inc.incarnationDepth o = some d ↔ inc.Reaches o d :=
  ⟨depthWithin_reaches, fun h => h.depthWithin h.lt_length⟩

end RagRat.Account.Incarnations
