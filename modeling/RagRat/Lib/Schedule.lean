/-
  File:      RagRat/Lib/Schedule.lean
  Subject:   DEPENDENCIES FIRST: a depth-first walk with a stack of frames that schedules every node it
             comes to once, after the nodes it depends on.

  A node is pushed to be entered, and under its dependencies once more to be left; `active` holds those
  entered and not yet left. `Walk.Inv` is what every turn keeps: each frame stands above the node that
  pushed it, so a node met again while active closes a cycle (`Framed.cycle`), and what a node to be left
  still lacks stands above it.

  * **`schedule_ok`** -- a list holds exactly the nodes reached, each once and after its dependencies;
  * **`schedule_error`** -- an error is that of a node reached, or there is a cycle;
  * **`schedule_isSome`** -- the bound on the turns is enough.
-/
import Mathlib.Algebra.Order.BigOperators.Group.Finset
import Mathlib.Logic.Relation
import RagRat.Lib.Loop

namespace RagRat.Lib.Schedule

open List
open Relation Loop

variable {ν ε : Type} [DecidableEq ν]

/-! ## 1. The walk -/

/-- What is scheduled, what is entered and not left, and the frames; a marked one is to be left. -/
structure Walk (ν : Type) where
  order : List ν
  active : List ν
  stack : List (ν × Bool)

variable (deps : ν → Except ε (List ν)) (cyclic : ε) {order : List ν}

/-- One frame of the walk. -/
def turn (w : Walk ν) : Walk ν ⊕ Except ε (List ν) :=
  match w.stack with
  | [] => .inr (.ok w.order)
  | (node, leaving) :: rest =>
    if node ∈ w.order then .inl { w with stack := rest }
    else
      match deps node with
      | .error e => .inr (.error e)
      | .ok ds =>
        if leaving then .inl ⟨w.order ++ [node], w.active.erase node, rest⟩
        else if node ∈ w.active then .inr (.error cyclic)
        else .inl ⟨w.order, node :: w.active,
          (ds.filter (· ∉ w.order)).map (·, false) ++ (node, true) :: rest⟩

/-- The frame of the root. -/
def start (root : Option ν) : Walk ν := ⟨[], [], root.toList.map (·, false)⟩

/-- The walk over the nodes `all`, of which each has at most `cost` dependencies. -/
def schedule (all : Finset ν) (cost : ν → Nat) (root : Option ν) : Option (Except ε (List ν)) :=
  loop (turn deps cyclic) (∑ v ∈ all, (cost v + 1) + 2) (start root)

/-! ## 2. What a turn keeps -/

/-- What a turn does: with no frame left it hands out the order; else it takes a frame whose node is
    scheduled, fails with its error, leaves it, meets it again, or enters it. -/
inductive Turned (w : Walk ν) : Walk ν ⊕ Except ε (List ν) → Prop where
  | done (hs : w.stack = []) : Turned w (.inr (.ok w.order))
  | skip {v b rest} (hs : w.stack = (v, b) :: rest) (hmem : v ∈ w.order) :
      Turned w (.inl { w with stack := rest })
  | fails {v b rest e} (hs : w.stack = (v, b) :: rest) (he : deps v = .error e) :
      Turned w (.inr (.error e))
  | leave {v rest ds} (hs : w.stack = (v, true) :: rest) (hmem : v ∉ w.order) (hds : deps v = .ok ds) :
      Turned w (.inl ⟨w.order ++ [v], w.active.erase v, rest⟩)
  | again {v rest} (hs : w.stack = (v, false) :: rest) (hact : v ∈ w.active) :
      Turned w (.inr (.error cyclic))
  | enter {v rest ds} (hs : w.stack = (v, false) :: rest) (hmem : v ∉ w.order) (hds : deps v = .ok ds)
      (hact : v ∉ w.active) : Turned w (.inl ⟨w.order, v :: w.active,
        (ds.filter (· ∉ w.order)).map (·, false) ++ (v, true) :: rest⟩)

theorem turned (w : Walk ν) : Turned deps cyclic w (turn deps cyclic w) := by
  unfold turn
  split
  next hs => exact .done hs
  next v leaving rest hs =>
    split
    next hmem => exact .skip hs hmem
    next hmem =>
      split
      next e he => exact .fails hs he
      next ds hds =>
        cases leaving with
        | true => exact .leave hs hmem hds
        | false =>
          by_cases hact : v ∈ w.active
          · simpa [hact] using Turned.again hs hact
          · simpa [hact] using Turned.enter hs hmem hds hact

/-- The node the frames on top of `rest` were pushed for. -/
def opener (rest : List (ν × Bool)) : Option ν := (rest.find? (·.2)).map (·.1)

/-- The frames below the nodes `above`: each node is a dependency of the node it was pushed for, the lowest
    is the root; what a node to be left lacks stands above it, and so does the root if it is not scheduled. -/
def Framed (dep : ν → ν → Prop) (root : Option ν) (order : List ν) : List ν → List (ν × Bool) → Prop
  | above, [] => ∀ r ∈ root, r ∈ order ∨ r ∈ above
  | above, f :: rest => (match opener rest with
    | none => f.1 ∈ root
    | some p => dep p f.1) ∧ (f.2 = true → ∀ d, dep f.1 d → d ∈ order ∨ d ∈ above) ∧
      Framed dep root order (f.1 :: above) rest

/-- What every state of a walk keeps. -/
structure Walk.Inv (dep : ν → ν → Prop) (root : Option ν) (w : Walk ν) : Prop where
  nodup : w.order.Nodup
  /-- What is scheduled stands after its dependencies. -/
  after : ∀ pre v post, w.order = pre ++ v :: post → (∃ ds, deps v = .ok ds) ∧ ∀ d, dep v d → d ∈ pre
  active : w.active = (w.stack.filter (·.2)).map (·.1)
  active_nodup : w.active.Nodup
  fresh : ∀ v ∈ w.active, v ∉ w.order
  framed : Framed dep root w.order [] w.stack
  reached : ∀ v, v ∈ w.order ∨ v ∈ w.stack.map (·.1) → ∃ r ∈ root, ReflTransGen dep r v

section Keep

variable {deps cyclic} {dep : ν → ν → Prop} {root : Option ν} {w w' : Walk ν} {v : ν} {b : Bool}
  {stack rest : List (ν × Bool)} {ds above above' order' : List ν}

omit [DecidableEq ν] in
theorem inv_start : (start root).Inv deps dep root := by
  cases root with
  | none => constructor <;> simp [start, Framed]
  | some r =>
    refine ⟨nodup_nil, by simp [start], rfl, nodup_nil, by simp [start], ⟨rfl, nofun, by simp [Framed]⟩, ?_⟩
    intro v hv
    have : v = r := by simpa [start] using hv
    exact ⟨r, rfl, this ▸ .refl⟩

omit [DecidableEq ν] in
theorem Framed.mono (h : Framed dep root order above stack)
    (hsub : ∀ u, u ∈ order ∨ u ∈ above → u ∈ order' ∨ u ∈ above') :
    Framed dep root order' above' stack := by
  induction stack generalizing above above' with
  | nil => exact fun r hr => hsub r (h r hr)
  | cons f rest ih =>
    refine ⟨h.1, fun hf d hd => hsub d (h.2.1 hf d hd), ih h.2.2 fun u hu => ?_⟩
    rw [mem_cons, or_left_comm] at hu ⊢
    exact hu.imp_right (hsub u)

omit [DecidableEq ν] in
theorem Framed.cycle {x : ν} (h : Framed dep root order above ((x, b) :: rest)) (hv : (v, true) ∈ rest) :
    TransGen dep v x := by
  induction rest generalizing x b above with
  | nil => exact absurd hv not_mem_nil
  | cons f rest ih =>
    obtain ⟨y, c⟩ := f
    obtain ⟨hx, -, hrest⟩ := h
    cases c with
    | true =>
      have hyx : dep y x := hx
      rcases mem_cons.mp hv with heq | hv
      · cases heq
        exact .single hyx
      · exact (ih hrest hv).tail hyx
    | false =>
      -- a frame to be entered pushed nothing: look below it
      have hv : (v, true) ∈ rest := by simpa using hv
      exact ih (b := false)
        ⟨hx, nofun, hrest.2.2.mono fun u => Or.imp_right (Perm.swap x y above).mem_iff.mp⟩ hv

omit [DecidableEq ν] in
theorem Framed.enter (h : Framed dep root order above ((v, b) :: rest)) (hds : ∀ d ∈ ds, dep v d)
    (howed : ∀ d, dep v d → d ∈ order ∨ d ∈ ds ++ above) :
    Framed dep root order above (ds.map (·, false) ++ (v, true) :: rest) := by
  induction ds generalizing above with
  | nil => exact ⟨h.1, fun _ => howed, h.2.2⟩
  | cons d ds ih =>
    have hopen : opener (ds.map (·, false) ++ (v, true) :: rest) = some v := by
      unfold opener
      rw [find?_append, find?_eq_none.mpr (by simp)]
      simp
    rw [map_cons, cons_append, Framed, hopen]
    refine ⟨hds d mem_cons_self, nofun, ih (h.mono fun u => Or.imp_right (mem_cons_of_mem d))
      (forall_mem_cons.mp hds).2 fun d' hd' => (howed d' hd').imp_right fun hmem => ?_⟩
    exact perm_middle.mem_iff.mpr hmem

omit [DecidableEq ν] in
theorem Framed.pop (h : Framed dep root order [] ((v, b) :: rest)) (hsub : order ⊆ order') (hv : v ∈ order') :
    Framed dep root order' [] rest :=
  h.2.2.mono fun u hu => .inl (hu.elim (@hsub u) fun hu => mem_singleton.mp hu ▸ hv)

omit [DecidableEq ν] in
theorem inv_skip (hw : w.Inv deps dep root) (hs : w.stack = (v, b) :: rest) (hmem : v ∈ w.order) :
    Walk.Inv deps dep root { w with stack := rest } := by
  have hactive := hw.active
  rw [hs] at hactive
  have hfalse : b = false := by
    cases b with
    | false => rfl
    | true => exact absurd hmem (hw.fresh v (by rw [hactive]; simp))
  refine ⟨hw.nodup, hw.after, by simpa [hfalse] using hactive, hw.active_nodup, hw.fresh,
    (hs ▸ hw.framed).pop (List.Subset.refl _) hmem, fun u hu => hw.reached u ?_⟩
  exact hu.imp_right fun hu => by rw [hs]; exact mem_cons_of_mem _ hu

theorem inv_leave (hw : w.Inv deps dep root) (hs : w.stack = (v, true) :: rest) (hmem : v ∉ w.order)
    (hds : deps v = .ok ds) : Walk.Inv deps dep root ⟨w.order ++ [v], w.active.erase v, rest⟩ := by
  have hactive : w.active = v :: (rest.filter (·.2)).map (·.1) := by simpa [hs] using hw.active
  obtain ⟨hv, hnodup⟩ := nodup_cons.mp (hactive ▸ hw.active_nodup)
  have herase : w.active.erase v = (rest.filter (·.2)).map (·.1) := by
    rw [hactive, erase_cons_head]
  have hlast : (∃ ds, deps v = .ok ds) ∧ ∀ d, dep v d → d ∈ w.order :=
    ⟨⟨ds, hds⟩, fun d hd => ((hs ▸ hw.framed).2.1 rfl d hd).resolve_right not_mem_nil⟩
  refine ⟨?_, fun pre u post heq => ?_, herase, herase ▸ hnodup, fun u hu ho => ?_,
    (hs ▸ hw.framed).pop (subset_append_left _ _) (mem_append_right _ mem_cons_self),
    fun u hu => hw.reached u ?_⟩
  · refine nodup_append.mpr ⟨hw.nodup, nodup_singleton v, fun a ha b hb hab => ?_⟩
    exact hmem (mem_singleton.mp hb ▸ hab ▸ ha)
  · rcases eq_nil_or_concat post with rfl | ⟨post, z, rfl⟩
    · obtain ⟨hpre, huv⟩ := append_inj' heq rfl
      rw [← hpre, ← (List.cons.inj huv).1]
      exact hlast
    · have heq : w.order ++ [v] = (pre ++ u :: post) ++ [z] := by simpa using heq
      exact hw.after pre u post (append_inj' heq rfl).1
  · rw [herase] at hu
    rcases mem_append.mp ho with ho | ho
    · exact hw.fresh u (by rw [hactive]; exact mem_cons_of_mem _ hu) ho
    · exact hv (mem_singleton.mp ho ▸ hu)
  · rw [hs]
    rcases hu with ho | hp
    · rcases mem_append.mp ho with ho | ho
      · exact .inl ho
      · exact .inr (mem_singleton.mp ho ▸ mem_cons_self)
    · exact .inr (mem_cons_of_mem _ hp)

theorem inv_enter (hdeps : ∀ v ds, deps v = .ok ds → ∀ d, d ∈ ds ↔ dep v d)
    (hw : w.Inv deps dep root) (hs : w.stack = (v, false) :: rest) (hmem : v ∉ w.order)
    (hds : deps v = .ok ds) (hact : v ∉ w.active) :
    Walk.Inv deps dep root ⟨w.order, v :: w.active,
      (ds.filter (· ∉ w.order)).map (·, false) ++ (v, true) :: rest⟩ := by
  have hdep : ∀ d ∈ ds.filter (· ∉ w.order), dep v d := fun d hd =>
    (hdeps v ds hds d).mp (mem_of_mem_filter hd)
  have hmap : ((ds.filter (· ∉ w.order)).map (·, false)).map (·.1) = ds.filter (· ∉ w.order) := by
    rw [List.map_map]
    exact map_id _
  have hactive : w.active = (rest.filter (·.2)).map (·.1) := by simpa [hs] using hw.active
  have hnone : ((ds.filter (· ∉ w.order)).map (·, false)).filter (·.2) = [] :=
    filter_eq_nil_iff.mpr (by simp)
  refine ⟨hw.nodup, hw.after, ?_, nodup_cons.mpr ⟨hact, hw.active_nodup⟩, fun u hu => ?_,
    (hs ▸ hw.framed).enter hdep fun d hd => ?_, fun u hu => ?_⟩
  · rw [filter_append, hnone]
    simp [hactive]
  · rcases mem_cons.mp hu with rfl | hu
    · exact hmem
    · exact hw.fresh u hu
  · have hv : ∃ r ∈ root, ReflTransGen dep r v := hw.reached v (.inr (by rw [hs]; simp))
    rw [map_append, hmap] at hu
    rcases hu with ho | hp
    · exact hw.reached u (.inl ho)
    · rcases mem_append.mp hp with hp | hp
      · obtain ⟨r, hr, hrv⟩ := hv
        exact ⟨r, hr, hrv.tail (hdep u hp)⟩
      · exact hw.reached u (.inr (by rw [hs]; exact hp))
  · by_cases ho : d ∈ w.order
    · exact .inl ho
    · exact .inr (mem_append_left _ (mem_filter.mpr ⟨(hdeps v ds hds d).mpr hd, by simpa using ho⟩))

theorem turn_inv (hdeps : ∀ v ds, deps v = .ok ds → ∀ d, d ∈ ds ↔ dep v d)
    (hw : w.Inv deps dep root) (h : turn deps cyclic w = .inl w') : w'.Inv deps dep root := by
  have ht := turned deps cyclic w
  rw [h] at ht
  cases ht with
  | skip hs hmem => exact inv_skip hw hs hmem
  | leave hs hmem hds => exact inv_leave hw hs hmem hds
  | enter hs hmem hds hact => exact inv_enter hdeps hw hs hmem hds hact

end Keep

/-! ## 3. What comes out -/

section Out

variable {deps cyclic} {dep : ν → ν → Prop} {root : Option ν} {all : Finset ν} {cost : ν → Nat}

theorem schedule_ok (hdeps : ∀ v ds, deps v = .ok ds → ∀ d, d ∈ ds ↔ dep v d)
    (h : schedule deps cyclic all cost root = some (.ok order)) :
    order.Nodup ∧ (∀ v, v ∈ order ↔ ∃ r ∈ root, ReflTransGen dep r v) ∧
    ∀ pre v post, order = pre ++ v :: post → (∃ ds, deps v = .ok ds) ∧ ∀ d, dep v d → d ∈ pre := by
  obtain ⟨w, hw, hout⟩ := loop_rule (Walk.Inv deps dep root) (fun w w' => turn_inv hdeps) inv_start h
  have ht := turned deps cyclic w
  rw [hout] at ht
  obtain hs | _ := ht
  have hclosed : ∀ u ∈ w.order, ∀ d, dep u d → d ∈ w.order := by
    intro u hu d hd
    obtain ⟨pre, post, heq⟩ := append_of_mem hu
    rw [heq]
    exact mem_append_left _ ((hw.after pre u post heq).2 d hd)
  refine ⟨hw.nodup, fun v => ⟨fun hv => hw.reached v (.inl hv), ?_⟩, hw.after⟩
  rintro ⟨r, hr, hrv⟩
  induction hrv with
  | refl => exact ((hs ▸ hw.framed) r hr).resolve_right not_mem_nil
  | tail _ hd ih => exact hclosed _ ih _ hd

omit [DecidableEq ν] in
theorem acyclic_of_after (hnodup : order.Nodup)
    (hafter : ∀ pre v post, order = pre ++ v :: post → ∀ d, dep v d → d ∈ pre) {v : ν}
    (hv : v ∈ order) : ¬ TransGen dep v v := by
  obtain ⟨pre, post, heq⟩ := append_of_mem hv
  have hbefore : ∀ d, TransGen dep v d → d ∈ pre := by
    intro d hd
    induction hd with
    | single hd => exact hafter pre v post heq _ hd
    | tail _ hd ih =>
      obtain ⟨pre', post', rfl⟩ := append_of_mem ih
      rw [append_assoc] at heq
      exact mem_append_left _ (hafter pre' _ _ heq _ hd)
  intro hcycle
  rw [heq] at hnodup
  exact (nodup_append.mp hnodup).2.2 v (hbefore v hcycle) v mem_cons_self rfl

theorem schedule_error (hdeps : ∀ v ds, deps v = .ok ds → ∀ d, d ∈ ds ↔ dep v d) {e : ε}
    (h : schedule deps cyclic all cost root = some (.error e)) :
    ∃ v, (∃ r ∈ root, ReflTransGen dep r v) ∧
      (deps v = .error e ∨ e = cyclic ∧ TransGen dep v v) := by
  obtain ⟨w, hw, hout⟩ := loop_rule (Walk.Inv deps dep root) (fun w w' => turn_inv hdeps) inv_start h
  have ht := turned deps cyclic w
  rw [hout] at ht
  have hreached : ∀ {v b rest}, w.stack = (v, b) :: rest → ∃ r ∈ root, ReflTransGen dep r v :=
    fun hs => hw.reached _ (.inr (by rw [hs]; exact mem_cons_self))
  cases ht with
  | fails hs he => exact ⟨_, hreached hs, .inl he⟩
  | @again v rest hs hact =>
    have hmark : (v, true) ∈ rest := by
      rw [hw.active, hs] at hact
      simpa using hact
    exact ⟨v, hreached hs, .inr ⟨rfl, (hs ▸ hw.framed).cycle hmark⟩⟩

/-- A node once entered is not entered again, and it pushes at most its cost. -/
def toDo (all : Finset ν) (cost : ν → Nat) (w : Walk ν) : Nat :=
  ∑ v ∈ all with v ∉ w.active ∧ v ∉ w.order, (cost v + 1) + w.stack.length

theorem schedule_isSome (hcost : ∀ v ds, deps v = .ok ds → v ∈ all ∧ ds.length ≤ cost v) :
    (schedule deps cyclic all cost root).isSome := by
  refine loop_isSome (fun _ => True) (toDo all cost) (fun w w' _ h => ⟨trivial, ?_⟩) trivial ?_
  · have ht := turned deps cyclic w
    rw [h] at ht
    obtain _ | ⟨hs, hmem⟩ | _ | @⟨v, _, _, hs⟩ | _ | @⟨v, _, ds, hs, hmem, hds, hact⟩ := ht
    · simp [toDo, hs]
    · -- a node left is scheduled, so nothing new is to be entered
      unfold toDo
      simp only [hs, length_cons]
      refine Nat.lt_succ_of_le (Nat.add_le_add_right (Finset.sum_le_sum_of_subset fun u hu => ?_) _)
      obtain ⟨hu, hnot, ho⟩ := Finset.mem_filter.mp hu
      have huv : u ≠ v := fun huv => ho (mem_append_right _ (huv ▸ mem_cons_self))
      exact Finset.mem_filter.mpr
        ⟨hu, fun ha => hnot ((mem_erase_of_ne huv).mpr ha), fun h => ho (mem_append_left _ h)⟩
    · obtain ⟨hall, hlen⟩ := hcost v ds hds
      have hlt : (ds.filter (· ∉ w.order)).length ≤ cost v := (length_filter_le _ _).trans hlen
      have hsum : ∑ u ∈ all with u ∉ v :: w.active ∧ u ∉ w.order, (cost u + 1) + (cost v + 1) ≤
          ∑ u ∈ all with u ∉ w.active ∧ u ∉ w.order, (cost u + 1) := by
        have hv : v ∈ all.filter fun u => u ∉ w.active ∧ u ∉ w.order :=
          Finset.mem_filter.mpr ⟨hall, hact, hmem⟩
        rw [← Finset.sum_erase_add _ _ hv]
        refine Nat.add_le_add_right (Finset.sum_le_sum_of_subset fun u hu => ?_) _
        obtain ⟨hu, hnot, ho⟩ := Finset.mem_filter.mp hu
        obtain ⟨huv, hact'⟩ := not_or.mp (mt mem_cons.mpr hnot)
        exact Finset.mem_erase.mpr ⟨huv, Finset.mem_filter.mpr ⟨hu, hact', ho⟩⟩
      unfold toDo
      simp only [hs, length_append, length_map, length_cons]
      omega
  · have hstack : (start root).stack.length ≤ 1 := by cases root <;> simp [start]
    have hsum : ∑ v ∈ all with v ∉ (start root).active ∧ v ∉ (start root).order, (cost v + 1) ≤
        ∑ v ∈ all, (cost v + 1) := Finset.sum_le_sum_of_subset (Finset.filter_subset _ _)
    unfold toDo
    omega

end Out

end RagRat.Lib.Schedule
