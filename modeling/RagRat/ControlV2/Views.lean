/-
  File:      RagRat/ControlV2/Views.lean
  Subject:   THE ORDER OF THE VIEWS a v2 operation is replayed over: the view it nominates, and every view
             that an entry of a view nominates in turn, dependencies first.

  `orderViews` is the depth-first walk of `Lib.Schedule` over the supplied manifests. A view depends on the
  views its entries cite; what is missing, an entry that is the consuming operation itself, and a cycle
  are refused. `orderViews_exact` says when it succeeds and what it then returns.
-/
import Mathlib.Data.List.AList
import RagRat.Common
import RagRat.Lib.OrderedSet
import RagRat.Lib.Schedule

namespace RagRat.ControlV2

open List
open Lib Relation
open Schedule

/-- A view: its checkpoint and its entries. -/
structure ViewManifest where
  checkpoint : Bytes32
  entries : List EntryHash
  deriving DecidableEq

/-- Why there is no order. -/
inductive PlanError where
  | missingView (hash : Bytes32)
  | missingEntry (entry : EntryHash)
  | invalid (message : String)
  deriving DecidableEq

/-- The views held, by hash. -/
abbrev Views := AList fun _ : Bytes32 => ViewManifest

/-- Which view an entry of the evidence nominates, if any; `none` for an entry not supplied. -/
abbrev Citations := EntryHash → Option (Option Bytes32)

section Order

variable (consumer : EntryHash) (views : Views) (citations : Citations)

/-- The views the entries of a manifest nominate. -/
def nominated : List EntryHash → Except PlanError (List Bytes32)
  | [] => .ok []
  | entry :: rest =>
    if entry = consumer then .error (.invalid "pre-cut view contains its consumer")
    else
      match citations entry with
      | none => .error (.missingEntry entry)
      | some dependency => (nominated rest).map (dependency.toList ++ ·)

/-- The views a view depends on, in ascending order. -/
def dependencies (hash : Bytes32) : Except PlanError (List Bytes32) :=
  match views.lookup hash with
  | none => .error (.missingView hash)
  | some view => (nominated consumer citations view.entries).map OrderedSet.ofList

/-- The error of a cycle. -/
def cyclicViews : PlanError := .invalid "cyclic view dependencies"

/-- `order_views`; the walk has turns enough (`Schedule.schedule_isSome`). -/
def orderViews (root : Option Bytes32) : Except PlanError (List Bytes32) :=
  (schedule (dependencies consumer views citations) cyclicViews views.keys.toFinset
    (fun v => ((dependencies consumer views citations v).toOption.getD []).length) root).getD
    (.error (.invalid "the walk ran out of turns"))

/-- An entry of the first view nominates the second. -/
def DependsOn (v w : Bytes32) : Prop :=
  ∃ view, views.lookup v = some view ∧ ∃ e ∈ view.entries, citations e = some (some w)

/-- The view and every entry it names are supplied; it does not name the consuming operation. -/
def Complete (v : Bytes32) : Prop :=
  ∃ view, views.lookup v = some view ∧ (∀ e ∈ view.entries, (citations e).isSome) ∧
    consumer ∉ view.entries

/-- The root needs the view. -/
def Reachable (root : Option Bytes32) (v : Bytes32) : Prop :=
  ∃ r ∈ root, ReflTransGen (DependsOn views citations) r v

end Order

section Facts

variable (consumer : EntryHash) (views : Views) (citations : Citations)

theorem nominated_cases (entries : List EntryHash) :
    (∃ ds, nominated consumer citations entries = .ok ds ∧
      (∀ e ∈ entries, (citations e).isSome) ∧ consumer ∉ entries ∧
      ∀ d, d ∈ ds ↔ ∃ e ∈ entries, citations e = some (some d)) ∨
    ∃ err, nominated consumer citations entries = .error err ∧ err ≠ cyclicViews ∧
      ∃ e ∈ entries, e = consumer ∨ citations e = none := by
  induction entries with
  | nil => exact .inl ⟨[], rfl, by simp⟩
  | cons e rest ih =>
    by_cases he : e = consumer
    · exact .inr ⟨_, by rw [nominated, if_pos he], by decide, e, mem_cons_self, .inl he⟩
    cases hc : citations e with
    | none =>
      refine .inr ⟨.missingEntry e, ?_, fun h => PlanError.noConfusion h, e, mem_cons_self, .inr hc⟩
      rw [nominated, if_neg he, hc]
    | some c =>
      have hstep : nominated consumer citations (e :: rest) =
          (nominated consumer citations rest).map (c.toList ++ ·) := by
        rw [nominated, if_neg he, hc]
      rw [hstep]
      rcases ih with ⟨ds, hds, hall, hnot, hmem⟩ | ⟨err, herr, hne, e', he', hwhy⟩
      · refine .inl ⟨c.toList ++ ds, by rw [hds]; rfl, ?_, ?_, fun d => ?_⟩
        · exact forall_mem_cons.mpr ⟨by rw [hc]; rfl, hall⟩
        · exact fun h => (mem_cons.mp h).elim (fun h => he h.symm) hnot
        · rw [mem_append, hmem, exists_mem_cons_iff, hc, Option.mem_toList, Option.some.injEq]
      · exact .inr ⟨err, by rw [herr]; rfl, hne, e', mem_cons_of_mem _ he', hwhy⟩

theorem dependencies_cases (v : Bytes32) :
    (∃ ds, dependencies consumer views citations v = .ok ds ∧ Complete consumer views citations v ∧
      ∀ d, d ∈ ds ↔ DependsOn views citations v d) ∨
    ∃ err, dependencies consumer views citations v = .error err ∧ err ≠ cyclicViews ∧
      ¬ Complete consumer views citations v := by
  cases hv : views.lookup v with
  | none =>
    refine .inr ⟨.missingView v, by rw [dependencies, hv], fun h => PlanError.noConfusion h, ?_⟩
    rintro ⟨view, hview, -⟩
    rw [hv] at hview
    cases hview
  | some view =>
    have hdeps : dependencies consumer views citations v =
        (nominated consumer citations view.entries).map OrderedSet.ofList := by
      rw [dependencies, hv]
    rcases nominated_cases consumer citations view.entries with
      ⟨ds, hds, hall, hnot, hmem⟩ | ⟨err, herr, hne, e, he, hwhy⟩
    · refine .inl ⟨OrderedSet.ofList ds, by rw [hdeps, hds]; rfl, ⟨view, hv, hall, hnot⟩, fun d => ?_⟩
      simp [hmem, DependsOn, hv]
    refine .inr ⟨err, by rw [hdeps, herr]; rfl, hne, ?_⟩
    rintro ⟨view', hview', hall, hnot⟩
    rw [hv] at hview'
    cases hview'
    rcases hwhy with rfl | hnone
    · exact hnot he
    · have hsome := hall e he
      rw [hnone] at hsome
      cases hsome

theorem mem_dependencies (v : Bytes32) (ds : List Bytes32)
    (h : dependencies consumer views citations v = .ok ds) (d : Bytes32) :
    d ∈ ds ↔ DependsOn views citations v d := by
  rcases dependencies_cases consumer views citations v with ⟨ds', hds', -, hmem⟩ | ⟨err, herr, -⟩
  · rw [h] at hds'
    cases hds'
    exact hmem d
  · rw [h] at herr
    cases herr

theorem orderViews_of_turns (root : Option Bytes32) : ∃ all cost,
    schedule (dependencies consumer views citations) cyclicViews all cost root =
      some (orderViews consumer views citations root) := by
  have hsome : (schedule (dependencies consumer views citations) cyclicViews
      views.keys.toFinset
      (fun v => ((dependencies consumer views citations v).toOption.getD []).length) root).isSome := by
    refine schedule_isSome fun v ds hds => ⟨?_, by rw [hds]; exact le_refl _⟩
    rw [mem_toFinset, ← AList.mem_keys, ← AList.lookup_isSome]
    unfold dependencies at hds
    cases hv : views.lookup v with
    | none => rw [hv] at hds; cases hds
    | some view => rfl
  obtain ⟨out, hout⟩ := Option.isSome_iff_exists.mp hsome
  exact ⟨_, _, by rw [orderViews, hout]; rfl⟩

end Facts

/-- **AN EXACT DEPENDENCY ORDER.** Views are ordered if and only if each view reached from the root is
    supplied with every entry it names, none of them names the consuming operation, and none depends on
    itself. The order then holds each view reached exactly once, after all it depends on; and a cycle is
    reported only where there is one. -/
theorem orderViews_exact (consumer : EntryHash) (views : Views) (citations : Citations)
    (root : Option Bytes32) :
    ((∃ order, orderViews consumer views citations root = .ok order) ↔
      ∀ v, Reachable views citations root v →
        Complete consumer views citations v ∧ ¬ TransGen (DependsOn views citations) v v) ∧
    (∀ order, orderViews consumer views citations root = .ok order →
      order.Nodup ∧ (∀ v, v ∈ order ↔ Reachable views citations root v) ∧
      ∀ pre v post, order = pre ++ v :: post → ∀ d, DependsOn views citations v d → d ∈ pre) ∧
    (orderViews consumer views citations root = .error cyclicViews →
      ∃ v, Reachable views citations root v ∧ TransGen (DependsOn views citations) v v) := by
  obtain ⟨all, cost, hrun⟩ := orderViews_of_turns consumer views citations root
  have hdeps := mem_dependencies consumer views citations
  refine ⟨⟨fun ⟨order, hok⟩ v hv => ?_, fun hall => ?_⟩, fun order hok => ?_, fun herr => ?_⟩
  · rw [hok] at hrun
    obtain ⟨hnodup, hmem, hafter⟩ := schedule_ok hdeps hrun
    have hv := (hmem v).mpr hv
    refine ⟨?_, acyclic_of_after hnodup (fun pre v post heq => (hafter pre v post heq).2) hv⟩
    obtain ⟨pre, post, heq⟩ := append_of_mem hv
    obtain ⟨ds, hds⟩ := (hafter pre v post heq).1
    rcases dependencies_cases consumer views citations v with ⟨-, -, hc, -⟩ | ⟨err, herr, -⟩
    · exact hc
    · rw [hds] at herr
      cases herr
  · cases hout : orderViews consumer views citations root with
    | ok order => exact ⟨order, rfl⟩
    | error e =>
      rw [hout] at hrun
      obtain ⟨v, hv, hwhy⟩ := schedule_error hdeps hrun
      obtain ⟨hc, hacyclic⟩ := hall v hv
      rcases hwhy with herr | ⟨-, hcycle⟩
      · rcases dependencies_cases consumer views citations v with ⟨ds, hds, -⟩ | ⟨-, -, -, hnot⟩
        · rw [hds] at herr
          cases herr
        · exact absurd hc hnot
      · exact absurd hcycle hacyclic
  · rw [hok] at hrun
    obtain ⟨hnodup, hmem, hafter⟩ := schedule_ok hdeps hrun
    exact ⟨hnodup, hmem, fun pre v post heq => (hafter pre v post heq).2⟩
  · rw [herr] at hrun
    obtain ⟨v, hv, hwhy⟩ := schedule_error hdeps hrun
    rcases hwhy with hfail | ⟨-, hcycle⟩
    · -- no view fails with the error of a cycle
      rcases dependencies_cases consumer views citations v with ⟨ds, hds, -⟩ | ⟨err, hfail', hne, -⟩
      · rw [hds] at hfail
        cases hfail
      · rw [hfail'] at hfail
        exact absurd (Except.error.inj hfail) hne
    · exact ⟨v, hv, hcycle⟩

/-- A view nominated by two others is one view of the order, and no cycle. -/
example : orderViews 9 [⟨1, ⟨0, [11, 12]⟩⟩, ⟨2, ⟨0, [13]⟩⟩, ⟨3, ⟨0, [13]⟩⟩, ⟨4, ⟨0, [14]⟩⟩].toAList
    (fun e => if e = 11 then some (some 2) else if e = 12 then some (some 3)
      else if e = 13 then some (some 4) else if e = 14 then some none else none) (some 1) =
    .ok [4, 2, 3, 1] := by
  decide +kernel

end RagRat.ControlV2
