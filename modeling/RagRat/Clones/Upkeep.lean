/-
  File:      RagRat/Clones/Upkeep.lean
  Subject:   The clone graph along runs of edits and in-place deltas.

  * `built_patched` -- a delta within its budget turns the graph of the content it was brought up to
    last into the graph of the index as it stands;
  * `Maintained` -- the states of a run: a build, edits, deltas applied, deltas declined;
  * `Applies` -- what one application can do, from which the invariant `UpTo`
    follows (`Maintained.upTo`);
  * **`delta_graph_is_a_rebuild`** -- after an applied delta the edges are those of a rebuild from
    scratch, whatever frequencies that one pins.
-/
import RagRat.Clones.Delta
import RagRat.Clones.Precomputed

namespace RagRat.Clones

open List
open Lib

variable {base index index' : Index} {gen gen' : Generation} {i j : Item} {e : EdgeRow}

/-! ## 1. The patched graph -/

section Patched

variable [Rounding] {paths : List String} {budget : Nat} {b : DeltaBatch}

theorem EdgeOf.ends (h : EdgeOf i j e) : e.a = i.anchor ∧ e.b = j.anchor := by
  rcases h with ⟨-, ⟨-, rfl⟩ | ⟨-, -, rfl⟩⟩
  · exact ⟨rfl, rfl⟩
  · exact ⟨rfl, rfl⟩

theorem Joins.outside_iff (h : Joins i j e) :
    (e.a.path ∉ paths ∧ e.b.path ∉ paths) ↔ (i.anchor.path ∉ paths ∧ j.anchor.path ∉ paths) := by
  rcases h with ⟨-, h⟩ | ⟨-, h⟩
  · rw [h.ends.1, h.ends.2]
  · rw [h.ends.1, h.ends.2, and_comm]

theorem built_patched (h : Patch base index gen paths) (hbuilt : Built base gen)
    (hrun : emitDelta index gen paths budget = (b, true)) (revision : Revision) :
    Built index (gen.patched paths b revision) := by
  obtain ⟨hedges, hgroups⟩ := mem_emitDelta h hrun
  -- kept and emitted rows together are the rows of the index
  have hall : ∀ e, e ∈ (gen.edges.filter fun e => e.a.path ∉ paths ∧ e.b.path ∉ paths) ∨
      e ∈ b.edges ↔ IsEdge index e := by
    intro e
    rw [mem_filter, decide_eq_true_eq, hbuilt.edges, hedges]
    constructor
    · rintro (⟨⟨i, j, hi, hj, hedge⟩, hout⟩ | ⟨i, j, hi, hj, -, hedge⟩)
      · obtain ⟨hip, hjp⟩ := hedge.outside_iff.mp hout
        exact ⟨i, j, (h.same i hip).mp hi, (h.same j hjp).mp hj, hedge⟩
      · exact ⟨i, j, hi, hj, hedge⟩
    · rintro ⟨i, j, hi, hj, hedge⟩
      by_cases hip : i.anchor.path ∈ paths
      · exact .inr ⟨i, j, hi, hj, hip, hedge⟩
      · by_cases hjp : j.anchor.path ∈ paths
        · exact .inr ⟨j, i, hj, hi, hjp, joins_comm.mp hedge⟩
        · exact .inl ⟨⟨i, j, (h.same i hip).mpr hi, (h.same j hjp).mpr hj, hedge⟩,
            hedge.outside_iff.mpr ⟨hip, hjp⟩⟩
  have hall' : ∀ p, p ∈ (gen.postings.filter fun p => p.path ∉ paths) ∨
      p ∈ b.groups.flatMap (·.rows) ↔ IsPosting index gen.epochDf p := by
    intro p
    rw [mem_filter, decide_eq_true_eq, hbuilt.postings, hgroups]
    constructor
    · rintro (⟨hp, hout⟩ | ⟨hp, -⟩)
      · obtain ⟨i, w, hi, hw, rfl⟩ := hp.exists_item
        exact ⟨i, (h.same i hout).mp hi, mem_map_of_mem hw⟩
      · exact hp
    · intro hp
      by_cases hpath : p.path ∈ paths
      · exact .inr ⟨hp, hpath⟩
      · obtain ⟨i, w, hi, hw, rfl⟩ := hp.exists_item
        exact .inl ⟨⟨i, (h.same i hpath).mpr hi, mem_map_of_mem hw⟩, hpath⟩
  constructor
  · intro e
    refine (Table.mem_insertOrIgnore fun r hr s hs hkey => ?_).trans (hall e)
    rw [mem_append, hall] at hr hs
    exact hr.eq_of_key h.placed hs hkey
  · intro p
    refine (Table.mem_insertOrIgnore fun r hr s hs hkey => ?_).trans (hall' p)
    rw [mem_append, hall'] at hr hs
    exact hr.eq_of_key h.placed hs hkey
  · exact Table.nodup_insertOrIgnore (hbuilt.distinctEdges.sublist (filter_sublist.map _)) _
  · exact Table.nodup_insertOrIgnore (hbuilt.distinctPostings.sublist (filter_sublist.map _)) _

theorem Built.congr (h : Built base gen) (hsame : ∀ item, base.HasItem item ↔ index.HasItem item) :
    Built index gen where
  edges e := by simp only [h.edges, IsEdge, hsame]
  postings p := by simp only [h.postings, IsPosting, hsame]
  distinctEdges := h.distinctEdges
  distinctPostings := h.distinctPostings

omit [Rounding] in
theorem counted_patched (hcounted : gen.postingsRowCount = gen.postings.length) (revision : Revision) :
    (gen.patched paths b revision).postingsRowCount =
      (gen.patched paths b revision).postings.length := by
  have hkept : (gen.postings.filter fun p => p.path ∉ paths).length ≤ gen.postings.length :=
    length_filter_le _ _
  have hadded := Table.length_le_insertOrIgnore PostingRow.key
    (gen.postings.filter fun p => p.path ∉ paths) (b.groups.flatMap (·.rows))
  simp only [Generation.patched, hcounted]
  omega

end Patched

/-! ## 2. Runs of edits and deltas -/

/-- An index read from content, with every fingerprinted symbol decodable and at a place of its own. -/
structure Index.Sound (content : String → FileSha → Item → Prop) (index : Index) : Prop where
  readFrom : index.ReadFrom content
  decodable : index.Decodable
  placed : index.ItemsPlaced
  hashes : index.HashFixesLength

/-- The same files, generated ones aside, whatever the row ids. -/
def Index.SameFiles (index index' : Index) : Prop :=
  ∀ path sha, (∃ f ∈ index.files, f.path = path ∧ f.sha256 = sha ∧ f.generated = false) ↔
    ∃ f ∈ index'.files, f.path = path ∧ f.sha256 = sha ∧ f.generated = false

/-- **The states a clone graph goes through**, each with the content its live generation was last
    brought up to: after a build, an edit, a delta applied with every changed path named, and one
    not applied. -/
inductive Maintained [Rounding] (digest : List (String × FileSha) → Revision)
    (content : String → FileSha → Item → Prop) : Database → Index → Prop
  | built {db₀ db : Database} (hsound : db₀.index.Sound content)
      (hnone : db₀.NoneToResume (contentRevision digest db₀.index))
      (h : Passes digest db₀ db .complete) : Maintained digest content db db.index
  | edit {db : Database} {base : Index} (h : Maintained digest content db base) (index : Index)
      (hsound : index.Sound content) : Maintained digest content { db with index := index } base
  | applied {db : Database} {base : Index} (h : Maintained digest content db base) (call : DeltaCall)
      (hcovers : call.hint.Covers base db.index)
      (hstatus : (applyCloneGraphDelta digest call db).2.status = .applied) :
      Maintained digest content (applyCloneGraphDelta digest call db).1 db.index
  | declined {db : Database} {base : Index} (h : Maintained digest content db base) (call : DeltaCall)
      (hstatus : (applyCloneGraphDelta digest call db).2.status ≠ .applied) :
      Maintained digest content (applyCloneGraphDelta digest call db).1 base

/-- One live generation, the graph of `base`, with its postings counted. -/
structure UpTo [Rounding] (base : Index) (db : Database) (gen : Generation) : Prop where
  only : db.generations = [gen]
  live : db.live = some gen.generation
  built : Built base gen
  counted : gen.postingsRowCount = gen.postings.length

section Runs

variable [Rounding] {digest : List (String × FileSha) → Revision} {content : String → FileSha → Item → Prop}
  {db : Database} {base : Index} {live : Generation}

theorem UpTo.liveGeneration (h : UpTo base db live) : db.liveGeneration = some live := by
  rw [Database.liveGeneration, h.live, h.only]
  simp

theorem UpTo.store (h : UpTo base db live) (hnumber : gen.generation = live.generation)
    (hbuilt : Built index gen) (hcounted : gen.postingsRowCount = gen.postings.length) :
    UpTo index (db.store gen) gen where
  only := by simp [Database.store, h.only, hnumber]
  live := by rw [hnumber]; exact h.live
  built := hbuilt
  counted := hcounted

/-- **What one application can do**: leave everything as it is, or bring the live generation up to
    date, by the stamp alone when no file changed and by the rows of the changed files otherwise. -/
inductive Applies (digest : List (String × FileSha) → Revision) (call : DeltaCall) (db : Database) :
    Database × CloneDeltaReport → Prop where
  | declined {report} (hstatus : report.status ≠ .applied) : Applies digest call db (db, report)
  | stamped {report live} (hstatus : report.status = .applied) (hlive : db.liveGeneration = some live)
      (hnone : call.hint.changedPaths db.index live = []) : Applies digest call db
        (db.store { live with sourceRevision := contentRevision digest db.index }, report)
  | patched {report live b} (hstatus : report.status = .applied)
      (hlive : db.liveGeneration = some live)
      (hrun : emitDelta db.index live (call.hint.changedPaths db.index live) (call.budget live) =
        (b, true)) : Applies digest call db (db.store (live.patched
          (call.hint.changedPaths db.index live) b (contentRevision digest db.index)), report)

theorem applies (digest : List (String × FileSha) → Revision) (call : DeltaCall) (db : Database) :
    Applies digest call db (applyCloneGraphDelta digest call db) := by
  unfold applyCloneGraphDelta
  split
  · exact .declined nofun
  split
  next => exact .declined nofun
  next live hlive =>
    split
    · exact .declined nofun
    split
    · exact .declined nofun
    split
    · exact .declined nofun
    unfold deltaEligible
    split
    · exact .declined nofun
    simp only
    split
    · exact .declined nofun
    split
    next hempty =>
      split
      · exact .stamped rfl hlive (isEmpty_iff.mp hempty)
      · exact .declined nofun
    next =>
      unfold patchLive
      split
      next => exact .declined nofun
      next b hrun => exact .patched rfl hlive hrun

theorem UpTo.applied (h : UpTo base db live) (hbase : base.Sound content)
    (hindex : db.index.Sound content) {call : DeltaCall} (hcovers : call.hint.Covers base db.index)
    {r : Database × CloneDeltaReport} (hr : Applies digest call db r) (hstatus : r.2.status = .applied) :
    r.1.index = db.index ∧ ∃ gen, UpTo db.index r.1 gen := by
  have hpatch : Patch base db.index live (call.hint.changedPaths db.index live) := {
    postings := h.built.postings
    same := fun item hpath => by
      by_contra hnot
      exact hpath ((mem_changedPaths_iff hcovers hbase.readFrom hindex.readFrom hindex.decodable
        h.built.postings).mpr ⟨item, rfl, hnot⟩)
    decodable := hindex.decodable
    placed := hindex.placed
    hashes := hindex.hashes }
  cases hr with
  | declined hnot => exact absurd hstatus hnot
  | stamped _ hlive hnone =>
    obtain rfl := Option.some.inj (hlive.symm.trans h.liveGeneration)
    have hbuilt : Built db.index _ := h.built.congr fun item =>
      hpatch.same item (by rw [hnone]; exact not_mem_nil)
    exact ⟨rfl, _, h.store rfl ⟨hbuilt.edges, hbuilt.postings, hbuilt.distinctEdges,
      hbuilt.distinctPostings⟩ h.counted⟩
  | patched _ hlive hrun =>
    obtain rfl := Option.some.inj (hlive.symm.trans h.liveGeneration)
    exact ⟨rfl, _, h.store rfl (built_patched hpatch h.built hrun _) (counted_patched h.counted _)⟩

theorem Applies.eq_of_declined {call : DeltaCall} {r : Database × CloneDeltaReport}
    (h : Applies digest call db r) (hstatus : r.2.status ≠ .applied) : r.1 = db := by
  cases h with
  | declined => rfl
  | stamped happlied | patched happlied => exact absurd happlied hstatus

theorem Maintained.upTo (h : Maintained digest content db base) : base.Sound content ∧
    db.index.Sound content ∧ ∃ gen, UpTo base db gen := by
  induction h with
  | built hsound hnone h =>
    obtain ⟨hindex, gen, hpub⟩ := published_of_passes hsound.placed hsound.hashes hnone h
    rw [← hindex] at hsound
    exact ⟨hsound, hsound, gen, hpub.only, hpub.live, hpub.built, hpub.counted⟩
  | edit h index hsound ih =>
    obtain ⟨hbase, -, gen, hup⟩ := ih
    exact ⟨hbase, hsound, gen, hup.only, hup.live, hup.built, hup.counted⟩
  | applied h call hcovers hstatus ih =>
    obtain ⟨hbase, hindex, gen, hup⟩ := ih
    obtain ⟨heq, hup'⟩ := hup.applied hbase hindex hcovers (applies ..) hstatus
    exact ⟨hindex, by rw [heq]; exact hindex, hup'⟩
  | declined h call hstatus ih =>
    rw [(applies digest call _).eq_of_declined hstatus]
    exact ih

omit [Rounding] in
theorem Index.SameFiles.hasItem_iff (h : index.SameFiles index') (hread : index.ReadFrom content)
    (hread' : index'.ReadFrom content) (item : Item) : index.HasItem item ↔ index'.HasItem item := by
  have hgo : ∀ {index index' : Index}, index.SameFiles index' → index.ReadFrom content →
      index'.ReadFrom content → index.HasItem item → index'.HasItem item := by
    intro index index' h hread hread' hitem
    obtain ⟨f, hf, hg, hmem⟩ := index.hasItem_iff.mp hitem
    obtain ⟨f', hf', hpath, hsha, hg'⟩ := (h f.path f.sha256).mp ⟨f, hf, rfl, rfl, hg⟩
    refine index'.hasItem_iff.mpr ⟨f', hf', hg', (hread' f' hf' item).mpr ?_⟩
    rw [hpath, hsha]
    exact (hread f hf item).mp hmem
  exact ⟨hgo h hread hread', hgo (fun path sha => (h path sha).symm) hread' hread⟩

theorem Built.edges_perm (h : Built index gen) (h' : Built index gen') : gen.edges.Perm gen'.edges :=
  (perm_ext_iff_of_nodup h.distinctEdges.of_map h'.distinctEdges.of_map).mpr fun e => by
    rw [h.edges, h'.edges]

/-- **The files alone decide a build**, wherever it is cut short and whatever it ranks tokens by, if no two
    fingerprinted symbols share a place and equal hashes are of equally long ones. -/
theorem builds_agree {digest' : List (String × FileSha) → Revision} {db' db₂ db₂' : Database}
    (hread : db.index.ReadFrom content) (hread₂ : db₂.index.ReadFrom content)
    (hplaced : db.index.ItemsPlaced) (hplaced₂ : db₂.index.ItemsPlaced)
    (hhashes : db.index.HashFixesLength) (hhashes₂ : db₂.index.HashFixesLength)
    (hfiles : db₂.index.SameFiles db.index) (hnone : db.NoneToResume (contentRevision digest db.index))
    (hnone₂ : db₂.NoneToResume (contentRevision digest' db₂.index))
    (h : Passes digest db db' .complete) (h₂ : Passes digest' db₂ db₂' .complete) :
    ∃ gen gen₂, db'.liveGeneration = some gen ∧ db₂'.liveGeneration = some gen₂ ∧
      gen.edges.Perm gen₂.edges := by
  obtain ⟨heq, gen, hpub⟩ := published_of_passes hplaced hhashes hnone h
  obtain ⟨heq₂, gen₂, hpub₂⟩ := published_of_passes hplaced₂ hhashes₂ hnone₂ h₂
  have hbuilt : Built db'.index gen₂ := hpub₂.built.congr fun item => by
    rw [heq, heq₂]
    exact hfiles.hasItem_iff hread₂ hread item
  exact ⟨gen, gen₂, hpub.liveGeneration, hpub₂.liveGeneration, hpub.built.edges_perm hbuilt⟩

/-- **Along every run of edits and deltas, the patched graph is the graph of a rebuild.** After a
delta reported as applied the live edges are those of any from-scratch build over the same files,
under whatever frequencies, and the postings are counted; a delta not applied changes nothing. -/
theorem delta_graph_is_a_rebuild (h : Maintained digest content db base) (call : DeltaCall) :
    ((applyCloneGraphDelta digest call db).2.status = .applied → call.hint.Covers base db.index →
      ∃ live, (applyCloneGraphDelta digest call db).1.liveGeneration = some live ∧
        live.postingsRowCount = live.postings.length ∧
        ∀ (digest' : List (String × FileSha) → Revision) (db₀ db' : Database),
          db₀.index.Sound content → db₀.index.SameFiles db.index →
          db₀.NoneToResume (contentRevision digest' db₀.index) →
          Passes digest' db₀ db' .complete → ∃ rebuilt, db'.liveGeneration = some rebuilt ∧
            live.edges.Perm rebuilt.edges) ∧
    ((applyCloneGraphDelta digest call db).2.status ≠ .applied →
      (applyCloneGraphDelta digest call db).1 = db) := by
  obtain ⟨hbase, hindex, gen, hup⟩ := h.upTo
  refine ⟨fun hstatus hcovers => ?_, (applies digest call db).eq_of_declined⟩
  obtain ⟨-, live, hlive⟩ := hup.applied hbase hindex hcovers (applies ..) hstatus
  refine ⟨live, hlive.liveGeneration, hlive.counted, ?_⟩
  intro digest' db₀ db' hsound hfiles hnone hpasses
  obtain ⟨heq, rebuilt, hpub⟩ := published_of_passes hsound.placed hsound.hashes hnone hpasses
  have hbuilt : Built db.index rebuilt := hpub.built.congr fun item => by
    rw [heq]
    exact hfiles.hasItem_iff hsound.readFrom hindex.readFrom item
  exact ⟨rebuilt, hpub.liveGeneration, hlive.built.edges_perm hbuilt⟩

end Runs

/-! ## 3. A run -/

/-- A second file, with a third function of the family. -/
def secondFile : FileRow := ⟨"b.rs", 1, false, [familySymbol 2]⟩

/-- The family's file and the second one. -/
def grownIndex : Index where
  files := [familyFile 2, secondFile]
  paths := by decide +kernel
  ids := by decide +kernel
  positive := by decide +kernel

/-- What the two files hold. -/
def familyContent (path : String) (_ : FileSha) (item : Item) : Prop :=
  path = "a.rs" ∧ item ∈ (familyFile 2).items ∨ path = "b.rs" ∧ item ∈ secondFile.items

theorem grownIndex_sound : grownIndex.Sound familyContent where
  readFrom := by
    intro file hfile item
    rcases mem_cons.mp hfile with rfl | hfile
    · exact (or_iff_left fun h => absurd h.1 (by decide)).symm.trans
        (or_congr_left (and_iff_right rfl).symm)
    · obtain rfl := mem_singleton.mp hfile
      exact (or_iff_right fun h => absurd h.1 (by decide)).symm.trans
        (or_congr_right (and_iff_right rfl).symm)
  decodable := by
    have h : ∀ row ∈ grownIndex.eligible anyFile, (rowItem row).isSome := by decide +kernel
    exact fun row hrow _ => h row hrow
  placed := by
    unfold Index.ItemsPlaced
    decide +kernel
  hashes := by
    have h : ∀ row ∈ grownIndex.eligible anyFile,
        (rowItem row).map (·.bag) = some oneTokenBag := by decide +kernel
    rintro i j ⟨row, hrow, hi⟩ ⟨row', hrow', hj⟩ -
    have hibag := h row hrow
    have hjbag := h row' hrow'
    rw [hi, Option.map_some, Option.some.injEq] at hibag
    rw [hj, Option.map_some, Option.some.injEq] at hjbag
    rw [hibag, hjbag]

theorem familyIndex_sound : (familyIndex 2).Sound familyContent where
  readFrom := by
    intro file hfile item
    obtain rfl := mem_singleton.mp hfile
    exact (or_iff_left fun h => absurd h.1 (by decide)).symm.trans
      (or_congr_left (and_iff_right rfl).symm)
  decodable := by
    intro row hrow _
    rw [eligible_family] at hrow
    obtain ⟨i, -, rfl⟩ := mem_map.mp hrow
    rfl
  placed := placed_family.itemsPlaced
  hashes := hashFixesLength_family

theorem builds_agree_family : ∃ gen gen₂,
    (reconcileCloneEdgesPass List.length unhurried (familyDatabase 2)).1.liveGeneration = some gen ∧
    (reconcileCloneEdgesPass List.length { unhurried with tokenDf := [(1, 2)] }
      (familyDatabase 2)).1.liveGeneration = some gen₂ ∧ gen.edges.Perm gen₂.edges :=
  builds_agree familyIndex_sound.readFrom familyIndex_sound.readFrom familyIndex_sound.placed familyIndex_sound.placed
    familyIndex_sound.hashes familyIndex_sound.hashes (fun _ _ => Iff.rfl) (noneToResume_family 2 _)
    (noneToResume_family 2 _) (passes_of_not_late unhurried rfl rfl)
    (passes_of_not_late { unhurried with tokenDf := [(1, 2)] } rfl rfl)

/-- The graph of the family's file, and the database once the second file is there. -/
def grownDatabase : Database :=
  { (reconcileCloneEdgesPass List.length { unhurried with tokenDf := [(1, 2)] } (familyDatabase 2)).1
    with index := grownIndex }

theorem maintained_grownDatabase :
    Maintained List.length familyContent grownDatabase (familyIndex 2) := by
  have hpass : Passes List.length (familyDatabase 2) _ .complete :=
    passes_of_not_late { unhurried with tokenDf := [(1, 2)] } rfl rfl
  have hnone := noneToResume_family 2 (contentRevision List.length (familyIndex 2))
  have hindex := (published_of_passes placed_family.itemsPlaced hashFixesLength_family hnone hpass).1
  have hbuilt : Maintained List.length familyContent _ _ := .built familyIndex_sound hnone hpass
  rw [hindex] at hbuilt
  exact hbuilt.edit grownIndex grownIndex_sound

/-- The second file is patched in, and the graph is that of a rebuild under no frequencies. -/
theorem grown_graph_is_a_rebuild :
    (applyCloneGraphDelta List.length ⟨false, 64, .fullScan, none⟩ grownDatabase).2.status = .applied ∧
      ∃ live, (applyCloneGraphDelta List.length ⟨false, 64, .fullScan, none⟩
          grownDatabase).1.liveGeneration = some live ∧
        live.postingsRowCount = live.postings.length ∧ ∃ rebuilt,
          (reconcileCloneEdgesPass List.length unhurried ⟨grownIndex, [], none⟩).1.liveGeneration =
            some rebuilt ∧ live.edges.Perm rebuilt.edges := by
  have hstatus : (applyCloneGraphDelta List.length ⟨false, 64, .fullScan, none⟩
      grownDatabase).2.status = .applied := by
    decide +kernel
  have hpass : Passes List.length ⟨grownIndex, [], none⟩ _ .complete :=
    passes_of_not_late unhurried rfl rfl
  obtain ⟨live, hlive, hcounted, hrebuild⟩ := (delta_graph_is_a_rebuild maintained_grownDatabase
    ⟨false, 64, .fullScan, none⟩).1 hstatus nofun
  exact ⟨hstatus, live, hlive, hcounted, hrebuild List.length ⟨grownIndex, [], none⟩ _
    grownIndex_sound (fun _ _ => Iff.rfl) (show Option.filter _ none = none from rfl) hpass⟩

end RagRat.Clones
