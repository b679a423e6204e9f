/-
  File:      RagRat/Secrets/Incarnation.lean
  Subject:   THE CURRENT INCARNATION of a repository: its accepted transitions name one when they form one
             line, and are contested otherwise.

  * `currentRef` -- the flags and the counted walk over the nodes of one repository;
  * `rewriteRepoIncarnationProjection`, `repoIncarnationState` -- the row of every repository and its
    reading;
  * `Line` -- the nodes of one line, the newest first.

  `repoIncarnationState_exact`: the walk ends, the state is current exactly for a line, and the order of
  the entries does not matter.
-/
import Mathlib.Data.Finset.Basic
import Mathlib.Data.List.Perm.Subperm
import RagRat.Common
import RagRat.Lib.Loop

namespace RagRat.Secrets

open List Lib.Loop

variable {l l' : List Node} {p : Option EntryHash} {h root : EntryHash} {s s' : EntryHash × Nat}

/-! ## 1. The projection -/

/-- One owner-authorized transition; the hash of its entry is the new incarnation. -/
structure RepoIncarnation where
  repoId : String
  predecessorRef : Option EntryHash

/-- Which incarnation of a repository is current. -/
inductive RepoIncarnationState where
  | absent
  | current (reference : EntryHash)
  | contested

/-- The state a row of the projection is read as. -/
def RepoIncarnationState.ofRow : Option (Option EntryHash) → RepoIncarnationState
  | none => absent
  | some none => contested
  | some (some reference) => current reference

/-- An accepted transition and its predecessor. -/
abbrev Node := EntryHash × Option EntryHash

section

variable (nodes : List Node)

/-- The nodes after a predecessor: the roots after none, else a value of the `children` map. -/
def after (predecessor : Option EntryHash) : List EntryHash :=
  (nodes.filter (·.2 == predecessor)).map (·.1)

/-- A turn of the walk, from where it stands and the nodes visited before. -/
def walkTurn (s : EntryHash × Nat) :
    (EntryHash × Nat) ⊕ (EntryHash × Nat × Bool) :=
  match (after nodes (some s.1)).head? with
  | none => .inr (s.1, s.2 + 1, false)
  | some next => if nodes.length < s.2 + 1 then .inr (next, s.2 + 1, true) else .inl (next, s.2 + 1)

/-- The walk from the first incarnation. -/
def walk : Option (Option EntryHash × Nat × Bool) :=
  match (after nodes none).head? with
  | none => some (none, 0, false)
  | some root =>
    (loop (walkTurn nodes) (nodes.length + 2) (root, 0)).map fun out => (some out.1, out.2)

/-- Not one root, a predecessor not held or with not one child, or nodes not visited. -/
def Contested (visited : Nat) (exceeded : Bool) : Prop :=
  (after nodes none).length ≠ 1 ∨
    (∃ n ∈ nodes, n.2.any fun p => p ∉ nodes.map (·.1) ∨ (after nodes n.2).length ≠ 1) ∨
    exceeded ∨ visited ≠ nodes.length

end

instance (nodes : List Node) (visited : Nat) (exceeded : Bool) :
    Decidable (Contested nodes visited exceeded) := inferInstanceAs (Decidable (_ ∨ _))

/-- The `incarnation_ref` of a repository; no result only if the walk did not end. -/
def currentRef (nodes : List Node) : Option (Option EntryHash) :=
  (walk nodes).map fun out => if Contested nodes out.2.1 out.2.2 then none else out.1

/-- The resolved entries of the secrets log, with the transitions they carry. -/
structure ResolvedLog where
  entries : List (EntryHash × Option RepoIncarnation)
  distinct : (entries.map (·.1)).Nodup

namespace ResolvedLog

variable (log : ResolvedLog) (accepted : Finset EntryHash) (repo : String)

/-- The accepted transitions of a repository. -/
def nodesOf : List Node :=
  log.entries.filterMap fun e =>
    e.2.bind fun op =>
      if e.1 ∈ accepted ∧ op.repoId = repo then some (e.1, op.predecessorRef) else none

/-- The row of a repository, if it has one. -/
def rewriteRepoIncarnationProjection : Option (Option (Option EntryHash)) :=
  if log.nodesOf accepted repo = [] then some none
  else (currentRef (log.nodesOf accepted repo)).map some

/-- **The state of a repository.** -/
def repoIncarnationState : Option RepoIncarnationState :=
  (log.rewriteRepoIncarnationProjection accepted repo).map .ofRow

end ResolvedLog

/-! ## 2. Lines -/

/-- The nodes of one line, newest first: each one's predecessor is the node behind it. -/
def Line : List Node → Prop
  | [] => True
  | n :: rest => n.2 = rest.head?.map (·.1) ∧ Line rest

theorem Line.of_append (h : Line (l ++ l')) : Line l' := by
  induction l with
  | nil => exact h
  | cons n l ih => exact ih h.2

section Distinct

variable {nodes : List Node} {n m : Node}

theorem Line.unique (hd : (nodes.map (·.1)).Nodup) (hl : ∀ x ∈ l, x ∈ nodes) (hl' : ∀ x ∈ l', x ∈ nodes)
    (h : Line l) (h' : Line l') (hhead : l.head?.map (·.1) = l'.head?.map (·.1)) : l = l' := by
  induction l generalizing l' with
  | nil =>
    cases l' with
    | nil => rfl
    | cons m l' => cases hhead
  | cons n l ih =>
    cases l' with
    | nil => cases hhead
    | cons m l' =>
      have hnm : n = m := inj_on_of_nodup_map hd (hl n mem_cons_self) (hl' m mem_cons_self)
        (Option.some.inj hhead)
      subst hnm
      rw [ih (forall_mem_cons.mp hl).2 (forall_mem_cons.mp hl').2 h.2 h'.2 (h.1.symm.trans h'.1)]

theorem Line.nodup (hd : (nodes.map (·.1)).Nodup) (hl : ∀ x ∈ l, x ∈ nodes) (h : Line l) : l.Nodup := by
  induction l with
  | nil => exact nodup_nil
  | cons n l ih =>
    have hl' : ∀ x ∈ l, x ∈ nodes := (forall_mem_cons.mp hl).2
    refine nodup_cons.mpr ⟨fun hn => ?_, ih hl' h.2⟩
    -- a second occurrence would have the same nodes behind it
    obtain ⟨a, b, rfl⟩ := append_of_mem hn
    have hb : n :: (a ++ n :: b) = n :: b := Line.unique hd hl
      (fun x hx => hl' x (mem_append_right _ hx)) h (Line.of_append h.2) rfl
    have := congrArg length hb
    simp only [length_cons, length_append] at this
    omega

theorem Line.nodup_predecessors (hd : (nodes.map (·.1)).Nodup) (hl : ∀ x ∈ l, x ∈ nodes) (h : Line l) :
    (l.map (·.2)).Nodup := by
  refine (Line.nodup hd hl h).map_on fun n hn m hm heq => ?_
  obtain ⟨a, b, hab⟩ := append_of_mem hn
  obtain ⟨c, d, hcd⟩ := append_of_mem hm
  have hn' : Line (n :: b) := Line.of_append (hab ▸ h)
  have hm' : Line (m :: d) := Line.of_append (hcd ▸ h)
  have hbd : b = d := Line.unique hd (fun x hx => hl x (by simp [hab, hx]))
    (fun x hx => hl x (by simp [hcd, hx])) hn'.2 hm'.2 (hn'.1.symm.trans (heq.trans hm'.1))
  subst hbd
  have := append_inj_right' (hab.symm.trans hcd) rfl
  exact (cons.inj this).1

theorem Line.held (h : Line l) (hne : l ≠ []) :
    none ∈ l.map (·.2) ∧ ∀ x ∈ l, ∀ p ∈ x.2, p ∈ l.map (·.1) := by
  induction l with
  | nil => exact absurd rfl hne
  | cons n l ih =>
    obtain ⟨hn, hline⟩ := h
    cases l with
    | nil =>
      refine ⟨mem_singleton.mpr hn.symm, fun x hx p hp => ?_⟩
      rw [mem_singleton.mp hx, hn] at hp
      cases hp
    | cons m l =>
      obtain ⟨hroot, hall⟩ := ih hline (cons_ne_nil _ _)
      refine ⟨mem_cons_of_mem _ hroot, fun x hx p hp => ?_⟩
      rcases mem_cons.mp hx with rfl | hx
      · rw [hn] at hp
        cases hp
        exact mem_cons_of_mem _ mem_cons_self
      · exact mem_cons_of_mem _ (hall x hx p hp)

theorem Line.followed (h : Line (l ++ n :: l')) (hne : l ≠ []) : ∃ m ∈ l, m.2 = some n.1 := by
  induction l with
  | nil => exact absurd rfl hne
  | cons m l ih =>
    obtain ⟨hm, hline⟩ := h
    cases l with
    | nil => exact ⟨m, mem_cons_self, hm⟩
    | cons k l =>
      obtain ⟨x, hx, hxn⟩ := ih hline (cons_ne_nil _ _)
      exact ⟨x, mem_cons_of_mem _ hx, hxn⟩

/-! ## 3. The walk -/

theorem mem_after : h ∈ after nodes p ↔ (h, p) ∈ nodes := by
  simp [after]

/-- Where the walk stands heads a line of nodes, the ones visited. -/
def Walked (nodes : List Node) (s : EntryHash × Nat) : Prop :=
  ∃ p l, (∀ x ∈ (s.1, p) :: l, x ∈ nodes) ∧ Line ((s.1, p) :: l) ∧ s.2 = l.length

theorem Walked.lt (hd : (nodes.map (·.1)).Nodup) (h : Walked nodes s) : s.2 < nodes.length := by
  obtain ⟨p, l, hl, hline, hlen⟩ := h
  have := (subperm_of_subset (Line.nodup hd hl hline) hl).length_le
  rw [length_cons] at this
  omega

theorem Walked.turn (h : Walked nodes s) (hturn : walkTurn nodes s = .inl s') :
    Walked nodes s' ∧ s'.2 = s.2 + 1 := by
  obtain ⟨p, l, hl, hline, hlen⟩ := h
  unfold walkTurn at hturn
  cases hnext : (after nodes (some s.1)).head? with
  | none => rw [hnext] at hturn; cases hturn
  | some next =>
    rw [hnext] at hturn
    have hmem := mem_after.mp (mem_of_head? hnext)
    simp only at hturn
    split_ifs at hturn
    cases hturn
    refine ⟨⟨some s.1, (s.1, p) :: l, fun x hx => ?_, ⟨rfl, hline⟩, by rw [length_cons, ← hlen]⟩, rfl⟩
    rcases mem_cons.mp hx with rfl | hx
    · exact hmem
    · exact hl x hx

/-- **What the walk went through is a line**: it leaves at a node that no node follows, within its
    count. -/
theorem walk_line (hd : (nodes.map (·.1)).Nodup) (hroot : (after nodes none).head? = some root) :
    ∃ n l, (∀ x ∈ n :: l, x ∈ nodes) ∧ Line (n :: l) ∧ after nodes (some n.1) = [] ∧
      walk nodes = some (some n.1, (n :: l).length, false) := by
  have hstart : Walked nodes (root, 0) := by
    refine ⟨none, [], fun x hx => ?_, ⟨rfl, trivial⟩, rfl⟩
    rw [mem_singleton.mp hx]
    exact mem_after.mp (mem_of_head? hroot)
  have hsome : (loop (walkTurn nodes) (nodes.length + 2) (root, 0)).isSome := by
    refine loop_isSome (Walked nodes) (fun s => nodes.length - s.2) (fun s s' hs ht => ?_) hstart ?_
    · obtain ⟨hs', hv⟩ := hs.turn ht
      have := hs.lt hd
      exact ⟨hs', by omega⟩
    · omega
  obtain ⟨out, hout⟩ := Option.isSome_iff_exists.mp hsome
  obtain ⟨⟨h, v⟩, hs, hend⟩ := loop_rule (Walked nodes) (fun s s' hs ht => (hs.turn ht).1) hstart hout
  have hlt := hs.lt hd
  obtain ⟨p, l, hl, hline, rfl⟩ := hs
  unfold walkTurn at hend
  cases hnext : (after nodes (some h)).head? with
  | some next =>
    rw [hnext] at hend
    simp only at hlt hend
    rw [if_neg (by omega)] at hend
    cases hend
  | none =>
    rw [hnext] at hend
    cases hend
    refine ⟨(h, p), l, hl, hline, head?_eq_none_iff.mp hnext, ?_⟩
    simp only [walk, hroot, hout, Option.map_some, length_cons]

/-! ## 4. The state -/

theorem Line.one_after (hd : (nodes.map (·.1)).Nodup) (hperm : l.Perm nodes) (h : Line l)
    (hp : p ∈ l.map (·.2)) : (after nodes p).length = 1 := by
  have hnodup := Line.nodup_predecessors hd (fun x hx => hperm.mem_iff.mp hx) h
  have hlen : (after nodes p).length = (nodes.map (·.2)).count p := by
    rw [after, length_map, count, countP_map, countP_eq_length_filter]
    rfl
  rw [hlen, ← (hperm.map _).count_eq, count_eq_one_of_mem hnodup hp]

/-- **The reference is current exactly for a line of all the nodes**, and then it is the newest. -/
theorem currentRef_spec (hd : (nodes.map (·.1)).Nodup) (hne : nodes ≠ []) :
    ∃ ref, currentRef nodes = some ref ∧ ∀ h, ref = some h ↔
      ∃ line, line.Perm nodes ∧ Line line ∧ line.head?.map (·.1) = some h := by
  have hmem : ∀ {line : List Node}, line.Perm nodes → line ≠ [] :=
    fun hp he => hne (hp.symm.trans (he ▸ .refl _)).eq_nil
  cases hroot : (after nodes none).head? with
  | none =>
    have hnone := head?_eq_none_iff.mp hroot
    refine ⟨none, by simp [currentRef, walk, hnone], fun h => ⟨nofun, ?_⟩⟩
    rintro ⟨line, hperm, hline, -⟩
    have := hline.one_after hd hperm (hline.held (hmem hperm)).1
    rw [hnone] at this
    cases this
  | some root =>
    obtain ⟨n, l, hl, hline, hlast, hwalk⟩ := walk_line hd hroot
    refine ⟨if Contested nodes (n :: l).length false then none else some n.1,
      by rw [currentRef, hwalk]; rfl, fun h => ?_⟩
    constructor
    · intro hcur
      split_ifs at hcur with hflags
      cases hcur
      have hlen : (n :: l).length = nodes.length := by
        by_contra hlen
        exact hflags (.inr (.inr (.inr hlen)))
      exact ⟨n :: l, (subperm_of_subset (Line.nodup hd hl hline) hl).perm_of_length_le hlen.ge, hline, rfl⟩
    · rintro ⟨line, hperm, hline', hhead⟩
      obtain ⟨a, b, rfl⟩ := append_of_mem (hperm.mem_iff.mpr (hl n mem_cons_self))
      -- no node follows the last one visited, so it heads the line
      have ha : a = [] := by
        by_contra ha
        obtain ⟨m, hm, hmn⟩ := hline'.followed ha
        have : m.1 ∈ after nodes (some n.1) :=
          mem_after.mpr (hmn ▸ hperm.mem_iff.mp (mem_append_left _ hm))
        rw [hlast] at this
        exact absurd this not_mem_nil
      subst ha
      have heq : n :: l = n :: b := Line.unique hd hl (fun x hx => hperm.mem_iff.mp hx) hline hline' rfl
      obtain ⟨hnone, hheld⟩ := hline'.held (hmem hperm)
      rw [if_neg]
      · exact hhead
      · rintro (hone | hpred | hex | hvis)
        · exact hone (hline'.one_after hd hperm hnone)
        · obtain ⟨x, hx, hbad⟩ := hpred
          cases hp : x.2 with
          | none => rw [hp] at hbad; cases hbad
          | some p =>
            have hxl := hperm.mem_iff.mpr hx
            have hpn : p ∈ nodes.map (·.1) := (hperm.map _).mem_iff.mp (hheld x hxl p hp)
            have hone := hline'.one_after hd hperm (mem_map_of_mem hxl)
            simp [hp] at hbad hone
            exact hbad.elim (fun h => by simp_all) fun h => h hone
        · cases hex
        · exact hvis ((congrArg length heq).trans hperm.length_eq)

end Distinct

/-! ## 5. The projection is exact -/

namespace ResolvedLog

section

variable (log : ResolvedLog) (accepted : Finset EntryHash) (repo : String)

theorem nodesOf_nodup : ((log.nodesOf accepted repo).map (·.1)).Nodup := by
  refine pairwise_map.mpr ((pairwise_map.mp log.distinct).filterMap _ fun e e' hne n hn n' hn' => ?_)
  have hfst : ∀ {e : EntryHash × Option RepoIncarnation} {n : Node},
      (e.2.bind fun op => if e.1 ∈ accepted ∧ op.repoId = repo then some (e.1, op.predecessorRef)
        else none) = some n → n.1 = e.1 := by
    intro e n h
    obtain ⟨op, -, h⟩ := Option.bind_eq_some_iff.mp h
    split_ifs at h
    cases h
    rfl
  rw [hfst hn, hfst hn']
  exact hne

theorem repoIncarnationState_spec :
    ∃ state, log.repoIncarnationState accepted repo = some state ∧
      (state = .absent ↔ log.nodesOf accepted repo = []) ∧
      ∀ h, state = .current h ↔ ∃ line, line.Perm (log.nodesOf accepted repo) ∧ Line line ∧
        line.head?.map (·.1) = some h := by
  by_cases hne : log.nodesOf accepted repo = []
  · refine ⟨.absent, by simp [repoIncarnationState, rewriteRepoIncarnationProjection, hne,
      RepoIncarnationState.ofRow], by simp [hne], fun h => ⟨nofun, ?_⟩⟩
    rintro ⟨line, hperm, -, hhead⟩
    rw [hne] at hperm
    rw [hperm.eq_nil] at hhead
    cases hhead
  · obtain ⟨ref, href, hcur⟩ := currentRef_spec (log.nodesOf_nodup accepted repo) hne
    refine ⟨.ofRow (some ref), ?_, iff_of_false ?_ hne, fun h => ?_⟩
    · rw [repoIncarnationState, rewriteRepoIncarnationProjection, if_neg hne, href]
      rfl
    · cases ref <;> nofun
    · rw [← hcur h]
      cases ref <;> simp [RepoIncarnationState.ofRow]

/-- **Repository incarnation state is exact**, and every order of the entries gives it. -/
theorem repoIncarnationState_exact :
    ∃ state, log.repoIncarnationState accepted repo = some state ∧
      (state = .absent ↔ log.nodesOf accepted repo = []) ∧
      (∀ h, state = .current h ↔ ∃ line, line.Perm (log.nodesOf accepted repo) ∧ Line line ∧
        line.head?.map (·.1) = some h) ∧
      ∀ log' : ResolvedLog, log'.entries.Perm log.entries →
        log'.repoIncarnationState accepted repo = some state := by
  obtain ⟨state, hstate, habs, hcur⟩ := log.repoIncarnationState_spec accepted repo
  refine ⟨state, hstate, habs, hcur, fun log' hperm => ?_⟩
  obtain ⟨state', hstate', habs', hcur'⟩ := log'.repoIncarnationState_spec accepted repo
  have hnodes : (log'.nodesOf accepted repo).Perm (log.nodesOf accepted repo) := hperm.filterMap _
  have hnil : state' = .absent ↔ state = .absent := by
    rw [habs, habs', ← length_eq_zero_iff, hnodes.length_eq, length_eq_zero_iff]
  have hsame : ∀ h, state' = .current h ↔ state = .current h := by
    intro h
    rw [hcur, hcur']
    exact exists_congr fun line => and_congr_left' ⟨(·.trans hnodes), (·.trans hnodes.symm)⟩
  rw [hstate']
  cases state with
  | absent => rw [hnil.mpr rfl]
  | current h => rw [(hsame h).mpr rfl]
  | contested =>
    cases state' with
    | absent => cases hnil.mp rfl
    | current h => cases (hsame h).mp rfl
    | contested => rfl

end

/-- A log in which the transition 2 of the repository follows the transition 1. -/
def replaced : ResolvedLog where
  entries := [(2, some ⟨"r", some 1⟩), (3, none), (1, some ⟨"r", none⟩)]
  distinct := by decide +kernel

/-- Transition 2 is current in every order of the entries; alone it is contested. -/
theorem repoIncarnationState_exact_replaced :
    replaced.repoIncarnationState {1, 2, 3} "r" = some (.current 2) ∧
    (∀ log : ResolvedLog, log.entries.Perm replaced.entries →
      log.repoIncarnationState {1, 2, 3} "r" = some (.current 2)) ∧
    replaced.repoIncarnationState {2, 3} "r" = some .contested := by
  have hcurrent : replaced.repoIncarnationState {1, 2, 3} "r" = some (.current 2) := by rfl
  obtain ⟨state, hstate, -, -, hperm⟩ := replaced.repoIncarnationState_exact {1, 2, 3} "r"
  cases hcurrent.symm.trans hstate
  exact ⟨hcurrent, hperm, by rfl⟩

end ResolvedLog

end RagRat.Secrets
