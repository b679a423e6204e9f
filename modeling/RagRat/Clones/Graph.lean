/-
  File:      RagRat/Clones/Graph.lean
  Subject:   The persisted clone graph: its edges and postings, and the resumable pass that builds a
             generation symbol by symbol, checkpoints it and publishes it.

  * `buildEdges` -- the edges the build emits from the smaller endpoint of a pair;
  * `reconcileCloneEdgesPass` -- one pass: skip, open or resume, walk, flush, publish;
  * `IsEdge`, `IsPosting` -- what a graph of an index is for: its clone pairs by content anchor, and
    the sub-block tokens of its symbols;
  * `mem_emittedEdges_iff` -- the build emits these edges, whatever the row ids and the token order;
  * **`published_of_passes`** -- a generation holds exactly these, however often its build was resumed.
-/
import RagRat.Lib.Table
import RagRat.Clones.Index

namespace RagRat.Clones

open List
open Lib
open Table

variable {i j : Item} {e e' : EdgeRow} {x y bag : SymbolBag} {ax ay sAnchor : Anchor}
  {bags todo todo' done rest : List SymbolBag} {anchors : SymbolId → Option Anchor} {t : SymbolId}
  {index : Index} {df : TokenHash → Option Int} {p p' : PostingRow} {g g' gen : Generation}
  {w w' : Walk} {revision : Revision} {db db' : Database} {keep : FileRow → Bool} {cut : Bool}

/-! ## 1. Stored rows -/

/-- The similarity the graph is computed at. -/
def clonePrecomputeTheta : ℚ := 7 / 10

theorem precomputeTheta_pos : 0 < clonePrecomputeTheta := by norm_num [clonePrecomputeTheta]

theorem precomputeTheta_le_one : clonePrecomputeTheta ≤ 1 := by norm_num [clonePrecomputeTheta]

/-- How a pair was found. -/
inductive EdgeSource where
  | structHash | subBlock
deriving DecidableEq

/-- A stored clone pair, by its anchors. -/
structure EdgeRow where
  a : Anchor
  b : Anchor
  overlap : Nat
  aTokenLen : Nat
  bTokenLen : Nat
  similarity : ℚ
  edgeSource : EdgeSource
deriving DecidableEq

/-- The primary key of an edge, within its generation. -/
def EdgeRow.key (e : EdgeRow) : (String ×ₗ Nat) × (String ×ₗ Nat) := (e.a.key, e.b.key)

/-- An edge with its endpoints in anchor order. -/
def makeEdge (s : Anchor) (sTokenLen : Nat) (t : Anchor) (tTokenLen overlap : Nat) (similarity : ℚ)
    (edgeSource : EdgeSource) : EdgeRow :=
  if s.key ≤ t.key then ⟨s, t, overlap, sTokenLen, tTokenLen, similarity, edgeSource⟩
  else ⟨t, s, overlap, tTokenLen, sTokenLen, similarity, edgeSource⟩

/-- A sub-block token of a stored symbol. -/
structure PostingRow where
  tokenHash : TokenHash
  path : String
  startByte : Nat
  fileSha : FileSha
deriving DecidableEq

/-- The primary key of a posting, within its generation. -/
def PostingRow.key (p : PostingRow) : TokenHash × String × Nat := (p.tokenHash, p.path, p.startByte)

/-- The sub-block postings of one symbol. -/
structure PostingGroup where
  anchor : Anchor
  tokens : List TokenHash

/-- The rows of one symbol. -/
def PostingGroup.rows (g : PostingGroup) : List PostingRow :=
  g.tokens.map fun token => ⟨token, g.anchor.path, g.anchor.startByte, g.anchor.fileSha⟩

/-- A content revision. -/
abbrev Revision := Nat

/-- Whether a generation is built. -/
inductive GenerationStatus where
  | building | complete
deriving DecidableEq

/-- A row of `clone_graph_generations`, with the rows stored under it. -/
structure Generation where
  generation : Nat
  status : GenerationStatus
  normalizerVersion : Nat
  sourceRevision : Revision
  cursorSymbolId : SymbolId
  edgesWritten : Nat
  postingsWritten : Bool
  deltaFilesApplied : Nat
  postingsRowCount : Nat
  edges : List EdgeRow
  postings : List PostingRow
  dfEpoch : List (TokenHash × Int)

open Generation

/-- The document frequencies pinned for a generation. -/
def Generation.epochDf (gen : Generation) (h : TokenHash) : Option Int :=
  (gen.dfEpoch.find? fun row => row.1 = h).map (·.2)

/-- It has the frequencies its postings were ranked by. -/
def Generation.dfEpochExists (gen : Generation) : Bool := !gen.dfEpoch.isEmpty

/-- The postings can be ordered: the frequencies are pinned, or there is nothing to order. -/
def Generation.dfEpochServes (gen : Generation) : Bool :=
  gen.dfEpochExists || gen.postings.isEmpty

/-- What is stored: the index, the generations and which is live. -/
structure Database where
  index : Index
  generations : List Generation
  /-- `clone_graph_live_generation`. -/
  live : Option Nat

open Database

/-- The generation the pointer names. -/
def Database.liveGeneration (db : Database) : Option Generation :=
  db.live.bind fun n => db.generations.find? fun gen => gen.generation = n

/-- Put a generation in the place of the one with its number. -/
def Database.store (db : Database) (gen : Generation) : Database :=
  { db with generations := db.generations.map fun g => if g.generation = gen.generation then gen else g }

/-- The revision of an index, from the paths and digests of its files. -/
def contentRevision (digest : List (String × FileSha) → Revision) (index : Index) : Revision :=
  digest (index.files.map fun file => (file.path, file.sha256))

/-- The version of the normalizer the readers accept. -/
def normVersion : Nat := 5

/-- Files a generation absorbs in place before it owes a rebuild. -/
def driftRebuildFiles : Nat := 256

/-! ## 2. The pass -/

section Emit

variable [Rounding] (bags : List SymbolBag) (anchors : SymbolId → Option Anchor)

section

variable (bag : SymbolBag)

/-- The exact partners of a symbol with a larger id, and where they stand. -/
def structPartners : List (SymbolBag × Anchor) :=
  (Buckets.get (structHashBuckets bags) (toLex (bag.structHash, bag.language))).filterMap fun t =>
    if bag.symbolId < t then
      (bagOf bags t).bind fun other => (anchors t).map fun anchor => (other, anchor)
    else none

/-- The later ids that share a sub-block token and the language, exact partners aside. -/
def buildCandidates : List SymbolId :=
  OrderedSet.ofList ((subBlockTokens bag clonePrecomputeTheta).flatMap fun token =>
    (Buckets.get (subBlockIndex bags clonePrecomputeTheta) token).filter fun t =>
      bag.symbolId < t ∧ t ∉ (structPartners bags anchors bag).map (·.1.symbolId) ∧
        (bagOf bags t).map (·.language) = some bag.language)

/-- A near edge, if the verify lets it through. -/
def nearEdge (sAnchor : Anchor) (other : SymbolBag) (tAnchor : Anchor) :
    Option EdgeRow :=
  if verifiedClone bag other clonePrecomputeTheta then
    let ov := overlap bag other
    let maxLen := max bag.tokenLen other.tokenLen
    some (makeEdge sAnchor bag.tokenLen tAnchor other.tokenLen ov (ov / maxLen : ℚ) .subBlock)
  else none

/-- The edge of two equal structural hashes. -/
def exactEdge (sAnchor : Anchor) (tokenLen : Nat) (tAnchor : Anchor) : EdgeRow :=
  makeEdge sAnchor bag.tokenLen tAnchor tokenLen bag.tokenLen 1 .structHash

/-- The edges of the pairs a symbol is the smaller endpoint of. -/
def buildEdges (sAnchor : Anchor) : List EdgeRow :=
  ((structPartners bags anchors bag).map fun p => exactEdge bag sAnchor p.1.tokenLen p.2) ++
    (buildCandidates bags anchors bag).filterMap fun t =>
      (anchors t).bind fun tAnchor => (bagOf bags t).bind fun other =>
        nearEdge bag sAnchor other tAnchor

end

end Emit

/-- A pass on its way: the generation as stored, and what is not flushed yet. -/
structure Walk where
  gen : Generation
  cursor : SymbolId
  batch : List EdgeRow
  postings : List PostingGroup
  flushes : Nat

/-- Insert what was staged and checkpoint the cursor, in one transaction. -/
def Walk.flush (w : Walk) : Walk where
  gen :=
    let edges := insertOrIgnore EdgeRow.key w.gen.edges w.batch
    { w.gen with
      edges := edges
      postings := insertOrIgnore PostingRow.key w.gen.postings (w.postings.flatMap (·.rows))
      cursorSymbolId := w.cursor
      edgesWritten := w.gen.edgesWritten + (edges.length - w.gen.edges.length) }
  cursor := w.cursor
  batch := []
  postings := []
  flushes := w.flushes + 1

/-- Stage the edges and postings of a symbol. -/
def Walk.stage [Rounding] (w : Walk) (bag : SymbolBag) (sAnchor : Anchor) (edges : List EdgeRow) : Walk :=
  let tokens := subBlockTokens bag clonePrecomputeTheta
  { w with
    batch := w.batch ++ edges
    postings := if tokens.isEmpty then w.postings else w.postings ++ [⟨sAnchor, tokens⟩]
    cursor := bag.symbolId }

/-- Walk the symbols in id order; a full batch is flushed, and past the deadline the pass ends. -/
def walkSymbols [Rounding] (bags : List SymbolBag) (anchors : SymbolId → Option Anchor) (batchSize : Nat)
    (late : Nat → Bool) : List SymbolBag → Walk → Walk × Bool
  | [], w => (w, false)
  | bag :: rest, w =>
    match anchors bag.symbolId with
    | none => walkSymbols bags anchors batchSize late rest w
    | some sAnchor =>
      let w := w.stage bag sAnchor (buildEdges bags anchors bag sAnchor)
      if batchSize ≤ w.batch.length ∨ batchSize ≤ w.postings.length then
        if late w.flushes then (w.flush, true)
        else walkSymbols bags anchors batchSize late rest w.flush
      else walkSymbols bags anchors batchSize late rest w

/-- What a pass came to. -/
inductive CloneEdgeStatus where
  | current | complete | isPartial
deriving DecidableEq

/-- A pass's options: the deadline by flushes made, the batch size, whether to rebuild a current
    graph, and the refreshed frequencies. -/
structure CloneEdgeOptions where
  late : Nat → Bool
  batchSize : Nat
  force : Bool
  tokenDf : List (TokenHash × Int)

/-- Toward this revision, under this normalizer, with its postings. -/
def Generation.resumable (gen : Generation) (revision : Revision) : Bool :=
  gen.sourceRevision = revision && gen.normalizerVersion = normVersion && gen.postingsWritten

/-- The live generation is already what a build would give. -/
def Database.graphCurrent (db : Database) (revision : Revision) : Bool :=
  match db.liveGeneration with
  | none => false
  | some live => live.resumable revision && live.dfEpochServes &&
      live.deltaFilesApplied < driftRebuildFiles

/-- The newest generation still building. -/
def Database.building (db : Database) : Option Generation :=
  db.generations.foldl (fun best gen =>
    if gen.status = .building ∧ (best.all fun b => b.generation ≤ gen.generation) then some gen
    else best) none

/-- Resume the build toward `revision`, or drop what is building and open a fresh generation. -/
def Database.openBuilding (db : Database) (revision : Revision) : Database × Generation :=
  match db.building.filter fun gen => gen.resumable revision with
  | some gen => (db, gen)
  | none =>
    let kept := db.generations.filter fun gen => gen.status ≠ .building
    let gen : Generation := {
      generation := (kept.map (·.generation)).foldl max 0 + 1
      status := .building
      normalizerVersion := normVersion
      sourceRevision := revision
      cursorSymbolId := 0
      edgesWritten := 0
      postingsWritten := true
      deltaFilesApplied := 0
      postingsRowCount := 0
      edges := []
      postings := []
      dfEpoch := [] }
    ({ db with generations := kept ++ [gen] }, gen)

/-- Publish a generation and drop every other one. -/
def Database.publish (db : Database) (gen : Generation) : Database where
  index := db.index
  generations := [{ gen with
    status := .complete
    postingsWritten := true
    postingsRowCount := gen.postings.length }]
  live := some gen.generation

/-- A build that has not begun pins the frequencies of now, a resumed one keeps its own. -/
def Generation.pinned (gen : Generation) (tokenDf : List (TokenHash × Int)) : Generation :=
  if gen.cursorSymbolId = 0 then { gen with dfEpoch := tokenDf } else gen

/-- The symbols after the cursor of a generation. -/
def pendingBags (index : Index) (gen : Generation) : List SymbolBag :=
  (loadBags index anyFile gen.epochDf).filter fun bag => gen.cursorSymbolId < bag.symbolId

/-- The walk of a pass, from the cursor of its generation on. -/
def walkPending [Rounding] (index : Index) (options : CloneEdgeOptions) (gen : Generation) : Walk × Bool :=
  walkSymbols (loadBags index anyFile gen.epochDf) (anchorOf index anyFile) options.batchSize
    options.late (pendingBags index gen) ⟨gen, gen.cursorSymbolId, [], [], 0⟩

/-- One pass: nothing on a current graph, else resume or open a build, walk, and publish at the end.
    -/
def reconcileCloneEdgesPass [Rounding] (digest : List (String × FileSha) → Revision) (options : CloneEdgeOptions)
    (db : Database) : Database × CloneEdgeStatus :=
  let revision := contentRevision digest db.index
  if !options.force && db.graphCurrent revision then (db, .current)
  else
    let (db, gen) := db.openBuilding revision
    let (w, budgetTripped) := walkPending db.index options (gen.pinned options.tokenDf)
    let gen := w.flush.gen
    if budgetTripped then (db.store gen, .isPartial) else (db.publish gen, .complete)

/-! ## 3. What a graph holds -/

/-- How much two items share. -/
def Item.shared (i j : Item) : Nat := (i.contents ∩ j.contents).card

/-- The edge of two items: exact where the structures agree, near where enough is shared. -/
def EdgeOf [Rounding] (i j : Item) (e : EdgeRow) : Prop :=
  i.language = j.language ∧
    (i.structHash = j.structHash ∧
        e = ⟨i.anchor, j.anchor, i.bag.size, i.bag.size, j.bag.size, 1, .structHash⟩ ∨
      i.structHash ≠ j.structHash ∧
        threshold clonePrecomputeTheta (max i.bag.size j.bag.size) ≤ i.shared j ∧
        e = ⟨i.anchor, j.anchor, i.shared j, i.bag.size, j.bag.size,
          (i.shared j : ℚ) / (max i.bag.size j.bag.size : ℕ), .subBlock⟩)

/-- The edge of two items, in anchor order. -/
def Joins [Rounding] (i j : Item) (e : EdgeRow) : Prop :=
  i.anchor.key < j.anchor.key ∧ EdgeOf i j e ∨ j.anchor.key < i.anchor.key ∧ EdgeOf j i e

/-- **The edges of an index**: those of its pairs of items. -/
def IsEdge [Rounding] (index : Index) (e : EdgeRow) : Prop :=
  ∃ i j, index.HasItem i ∧ index.HasItem j ∧ Joins i j e

/-- The sub-block of an item under pinned frequencies. -/
def Item.subBlock [Rounding] (item : Item) (df : TokenHash → Option Int) : List TokenHash :=
  subBlockTokens (item.toBag 0 df) clonePrecomputeTheta

/-- **The postings of an index**: the sub-block tokens of its items. -/
def IsPosting [Rounding] (index : Index) (df : TokenHash → Option Int) (p : PostingRow) : Prop :=
  ∃ item, index.HasItem item ∧ p ∈ (PostingGroup.mk item.anchor (item.subBlock df)).rows

/-- **Equal structural hashes come from streams of one length.** The hash is a digest of the stream.
    -/
def Index.HashFixesLength (index : Index) : Prop :=
  ∀ i j, index.HasItem i → index.HasItem j → i.structHash = j.structHash → i.bag.size = j.bag.size

theorem joins_comm [Rounding] : Joins i j e ↔ Joins j i e := or_comm

theorem Joins.ne [Rounding] (h : Joins i j e) : i.anchor.key ≠ j.anchor.key :=
  h.elim (·.1.ne) (·.1.ne')

theorem overlap_toBag (i j : Item) (a b : SymbolId) (df df' : TokenHash → Option Int) :
    overlap (i.toBag a df) (j.toBag b df') = i.shared j := by
  rw [overlap_eq_card, Item.contents_toBag, Item.contents_toBag, Item.shared]

theorem Item.shared_comm (i j : Item) : i.shared j = j.shared i := by
  rw [shared, shared, Multiset.inter_comm]

/-- **What is emitted for a pair of items is its edge**, whichever of the two is walked first. -/
theorem joins_iff [Rounding] (hne : i.anchor.key ≠ j.anchor.key)
    (hlen : i.structHash = j.structHash → i.bag.size = j.bag.size) (a b : SymbolId)
    (df df' : TokenHash → Option Int) :
    Joins i j e ↔ i.language = j.language ∧
      (i.structHash = j.structHash ∧ e = exactEdge (i.toBag a df) i.anchor j.bag.size j.anchor ∨
        i.structHash ≠ j.structHash ∧
          nearEdge (i.toBag a df) i.anchor (j.toBag b df') j.anchor = some e) := by
  have hnear : nearEdge (i.toBag a df) i.anchor (j.toBag b df') j.anchor = some e ↔
      threshold clonePrecomputeTheta (max i.bag.size j.bag.size) ≤ i.shared j ∧
        e = makeEdge i.anchor i.bag.size j.anchor j.bag.size (i.shared j)
          ((i.shared j : ℚ) / (max i.bag.size j.bag.size : ℕ)) .subBlock := by
    unfold nearEdge
    rw [← overlap_toBag i j a b df df']
    split
    next hv =>
      have hv' := verifiedClone_iff.mp hv
      simp only [Option.some.injEq]
      exact ⟨fun h => ⟨hv', h.symm⟩, fun h => h.2.symm⟩
    next hv =>
      have hv' := fun h => hv (verifiedClone_iff.mpr h)
      simp only [reduceCtorEq, false_iff, not_and]
      exact fun h => absurd h hv'
  rw [hnear, exactEdge]
  rcases lt_or_gt_of_ne hne with hlt | hlt
  · simp only [Joins, hlt, hlt.asymm, EdgeOf, makeEdge, hlt.le, if_true, true_and, false_and,
      or_false]
    rfl
  simp only [Joins, hlt, hlt.asymm, EdgeOf, makeEdge, hlt.not_ge, if_false, true_and, false_and,
    false_or, Item.shared_comm j i, max_comm j.bag.size, eq_comm (a := j.language),
    eq_comm (a := j.structHash), ne_comm (a := j.structHash)]
  refine and_congr_right fun _ => or_congr_left (and_congr_right fun hhash => ?_)
  rw [hlen hhash]
  show _ ↔ e = ⟨_, _, i.bag.size, _, i.bag.size, _, _⟩
  rw [hlen hhash]

theorem verified_of_nearEdge [Rounding] (h : nearEdge x ax y ay = some e) :
    threshold clonePrecomputeTheta (max x.tokenLen y.tokenLen) ≤ overlap x y := by
  unfold nearEdge at h
  split at h
  next hv => exact verifiedClone_iff.mp hv
  next => cases h

/-! ## 4. What the build emits -/

/-- An edge by the rules of a build: exact on one structure, near where the verify lets it through.
    -/
def PairEdge [Rounding] (x : SymbolBag) (ax : Anchor) (y : SymbolBag) (ay : Anchor) (e : EdgeRow) : Prop :=
  x.language = y.language ∧ (x.structHash = y.structHash ∧ e = exactEdge x ax y.tokenLen ay ∨
    x.structHash ≠ y.structHash ∧ nearEdge x ax y ay = some e)

theorem mem_get_structHashBuckets {k : StructHash ×ₗ String} :
    t ∈ Buckets.get (structHashBuckets bags) k ↔
      ∃ y ∈ bags, toLex (y.structHash, y.language) = k ∧ y.symbolId = t := by
  rw [structHashBuckets, Buckets.get_group, valuesAt_structHashBuckets]
  simp [and_assoc]

theorem mem_get_subBlockIndex [Rounding] {θ : ℚ} {token : TokenHash} :
    t ∈ Buckets.get (subBlockIndex bags θ) token ↔
      ∃ y ∈ bags, token ∈ subBlockTokens y θ ∧ y.symbolId = t := by
  rw [subBlockIndex, Buckets.get_group, valuesAt_subBlockIndex, holders]
  simp only [mem_map, mem_filter, decide_eq_true_eq, and_assoc]

theorem mem_structPartners (hid : (bags.map (·.symbolId)).Nodup) :
    (y, ay) ∈ structPartners bags anchors x ↔ y ∈ bags ∧ x.symbolId < y.symbolId ∧
      x.language = y.language ∧ x.structHash = y.structHash ∧ anchors y.symbolId = some ay := by
  simp only [structPartners, mem_filterMap, mem_get_structHashBuckets]
  constructor
  · rintro ⟨t, ⟨z, hz, hkey, rfl⟩, hsome⟩
    split at hsome
    next hlt =>
      simp only [bagOf_symbolId hid hz, Option.bind_some, Option.map_eq_some_iff,
        Prod.mk.injEq] at hsome
      obtain ⟨anchor, hanchor, rfl, rfl⟩ := hsome
      rw [toLex_inj, Prod.mk.injEq] at hkey
      exact ⟨hz, hlt, hkey.2.symm, hkey.1.symm, hanchor⟩
    next => cases hsome
  · rintro ⟨hy, hlt, hlang, hhash, hanchor⟩
    refine ⟨y.symbolId, ⟨y, hy, by rw [hlang, hhash], rfl⟩, ?_⟩
    simp [hlt, bagOf_symbolId hid hy, hanchor]

/-- **What a symbol emits**: an edge to every later symbol of its language that has its structure or
passes the verify. No candidate is missing, since a pair that passes shares a sub-block token. -/
theorem mem_buildEdges [Rounding] (anchors : SymbolId → Option Anchor) {df : TokenHash → Int}
    (hid : (bags.map (·.symbolId)).Nodup) (hdf : ∀ bag ∈ bags, Ranked df bag.tokens) (hx : x ∈ bags)
    (ax : Anchor) (e : EdgeRow) :
    e ∈ buildEdges bags anchors x ax ↔ ∃ y ∈ bags, x.symbolId < y.symbolId ∧
      ∃ ay, anchors y.symbolId = some ay ∧ PairEdge x ax y ay e := by
  rw [buildEdges, mem_append, mem_map, mem_filterMap]
  constructor
  · rintro (⟨⟨y, ay⟩, hp, rfl⟩ | ⟨t, ht, hsome⟩)
    · obtain ⟨hy, hlt, hlang, hhash, hanchor⟩ := (mem_structPartners hid).mp hp
      exact ⟨y, hy, hlt, ay, hanchor, hlang, .inl ⟨hhash, rfl⟩⟩
    · obtain ⟨ay, hanchor, hsome⟩ := Option.bind_eq_some_iff.mp hsome
      obtain ⟨y, hbag, hnear⟩ := Option.bind_eq_some_iff.mp hsome
      obtain ⟨hy, rfl⟩ := (bagOf_eq_some_iff hid).mp hbag
      rw [buildCandidates, OrderedSet.mem_ofList, mem_flatMap] at ht
      obtain ⟨token, -, ht⟩ := ht
      simp only [mem_filter, decide_eq_true_eq, hbag, Option.map_some, Option.some.injEq] at ht
      obtain ⟨-, hlt, hnot, hlang⟩ := ht
      refine ⟨y, hy, hlt, ay, hanchor, hlang.symm, .inr ⟨fun hhash => hnot ?_, hnear⟩⟩
      exact mem_map.mpr
        ⟨(y, ay), (mem_structPartners hid).mpr ⟨hy, hlt, hlang.symm, hhash, hanchor⟩, rfl⟩
  · rintro ⟨y, hy, hlt, ay, hanchor, hlang, ⟨hhash, rfl⟩ | ⟨hhash, hnear⟩⟩
    · exact .inl ⟨(y, ay), (mem_structPartners hid).mpr ⟨hy, hlt, hlang, hhash, hanchor⟩, rfl⟩
    · refine .inr ⟨y.symbolId, ?_, by simp [hanchor, bagOf_symbolId hid hy, hnear]⟩
      obtain ⟨w, hwx, hwy⟩ := exists_shared_subBlockToken (hdf x hx) (hdf y hy)
        precomputeTheta_pos precomputeTheta_le_one (verified_of_nearEdge hnear)
      rw [buildCandidates, OrderedSet.mem_ofList, mem_flatMap]
      refine ⟨w, hwx, mem_filter.mpr ⟨mem_get_subBlockIndex.mpr ⟨y, hy, hwy, rfl⟩, ?_⟩⟩
      simp only [decide_eq_true_eq, bagOf_symbolId hid hy, Option.map_some, Option.some.injEq]
      refine ⟨hlt, fun hmem => ?_, hlang.symm⟩
      obtain ⟨⟨z, az⟩, hz, hzid⟩ := mem_map.mp hmem
      obtain ⟨hzm, -, -, hzhash, -⟩ := (mem_structPartners hid).mp hz
      have : z = y := inj_on_of_nodup_map hid hzm hy hzid
      exact hhash (this ▸ hzhash)

/-- The edges a walk over the symbols of an index emits. -/
def emittedEdges [Rounding] (index : Index) (df : TokenHash → Option Int) (bag : SymbolBag) : List EdgeRow :=
  ((anchorOf index anyFile bag.symbolId).map
    (buildEdges (loadBags index anyFile df) (anchorOf index anyFile) bag)).getD []

/-- The postings it emits. -/
def emittedPostings [Rounding] (index : Index) (bag : SymbolBag) : List PostingRow :=
  ((anchorOf index anyFile bag.symbolId).map fun anchor =>
    (PostingGroup.mk anchor (subBlockTokens bag clonePrecomputeTheta)).rows).getD []

theorem exists_item_of_mem_loadBags (h : bag ∈ loadBags index keep df) :
    ∃ a i, index.ItemAt keep a i ∧ bag = i.toBag a df ∧
      anchorOf index keep bag.symbolId = some i.anchor := by
  obtain ⟨a, i, hi, rfl⟩ := mem_loadBags.mp h
  exact ⟨a, i, hi, rfl, hi.anchorOf⟩

/-- **The pairs of symbols with ascending ids give the edges of their items**, whatever the ids and
the frequencies. -/
theorem exists_pairEdge_iff [Rounding] (keep : FileRow → Bool) (df : TokenHash → Option Int)
    (hplaced : index.ItemsPlaced) (hlen : index.HashFixesLength) :
    (∃ x ∈ loadBags index keep df, ∃ y ∈ loadBags index keep df, x.symbolId < y.symbolId ∧
      ∃ ax ay, anchorOf index keep x.symbolId = some ax ∧ anchorOf index keep y.symbolId = some ay ∧
        PairEdge x ax y ay e) ↔
      ∃ a b i j, index.ItemAt keep a i ∧ index.ItemAt keep b j ∧ Joins i j e := by
  have hjoins : ∀ {a b : SymbolId} {i j : Item}, index.ItemAt keep a i → index.ItemAt keep b j →
      i.anchor.key ≠ j.anchor.key →
      (Joins i j e ↔ PairEdge (i.toBag a df) i.anchor (j.toBag b df) j.anchor e) :=
    fun hi hj hne => joins_iff hne (hlen _ _ hi.hasItem hj.hasItem) _ _ df df
  constructor
  · rintro ⟨x, hx, y, hy, hlt, ax, ay, hax, hay, hedge⟩
    obtain ⟨a, i, hi, rfl, hanchor⟩ := exists_item_of_mem_loadBags hx
    obtain ⟨b, j, hj, rfl, hanchor'⟩ := exists_item_of_mem_loadBags hy
    obtain rfl := Option.some.inj (hax.symm.trans hanchor)
    obtain rfl := Option.some.inj (hay.symm.trans hanchor')
    refine ⟨a, b, i, j, hi, hj, (hjoins hi hj fun hkey => ?_).mpr hedge⟩
    exact ne_of_lt hlt (hplaced.itemAt_eq hi hj hkey).1
  · rintro ⟨a, b, i, j, hi, hj, hedge⟩
    -- the edge is given by whichever of the two has the smaller id
    wlog hlt : a < b generalizing a b i j
    · rcases eq_or_lt_of_le (not_lt.mp hlt) with rfl | hgt
      · exact absurd (congrArg (·.anchor.key) (hi.unique hj)) hedge.ne
      · exact this b a j i hj hi (joins_comm.mp hedge) hgt
    exact ⟨_, mem_loadBags.mpr ⟨a, i, hi, rfl⟩, _, mem_loadBags.mpr ⟨b, j, hj, rfl⟩, hlt, _, _,
      hi.anchorOf, hj.anchorOf, (hjoins hi hj hedge.ne).mp hedge⟩

theorem isEdge_iff_itemAt [Rounding] : IsEdge index e ↔
    ∃ a b i j, index.ItemAt anyFile a i ∧ index.ItemAt anyFile b j ∧ Joins i j e := by
  simp only [IsEdge, hasItem_iff_itemAt]
  constructor
  · rintro ⟨i, j, ⟨a, hi⟩, ⟨b, hj⟩, h⟩
    exact ⟨a, b, i, j, hi, hj, h⟩
  · rintro ⟨a, b, i, j, hi, hj, h⟩
    exact ⟨i, j, ⟨a, hi⟩, ⟨b, hj⟩, h⟩

theorem mem_emittedEdges_iff [Rounding] (df : TokenHash → Option Int) (hplaced : index.ItemsPlaced)
    (hlen : index.HashFixesLength) :
    (∃ bag ∈ loadBags index anyFile df, e ∈ emittedEdges index df bag) ↔ IsEdge index e := by
  rw [isEdge_iff_itemAt, ← exists_pairEdge_iff anyFile df hplaced hlen]
  refine exists_congr fun x => and_congr_right fun hx => ?_
  obtain ⟨a, i, -, -, hanchor⟩ := exists_item_of_mem_loadBags hx
  rw [emittedEdges, hanchor, Option.map_some, Option.getD_some, mem_buildEdges
    (anchorOf index anyFile) nodup_loadBags (fun bag hbag => ranked_loadBags hbag) hx]
  simp only [Option.some.injEq, exists_and_left, exists_eq_left']

theorem mem_emittedPostings_iff [Rounding] :
    (∃ bag ∈ loadBags index anyFile df, p ∈ emittedPostings index bag) ↔ IsPosting index df p := by
  constructor
  · rintro ⟨x, hx, hp⟩
    obtain ⟨a, i, hi, rfl, hanchor⟩ := exists_item_of_mem_loadBags hx
    rw [emittedPostings, hanchor] at hp
    exact ⟨i, hi.hasItem, hp⟩
  · rintro ⟨i, hi, hp⟩
    obtain ⟨a, hi⟩ := hasItem_iff_itemAt.mp hi
    refine ⟨_, mem_loadBags.mpr ⟨a, i, hi, rfl⟩, ?_⟩
    rw [emittedPostings, show anchorOf index anyFile (i.toBag a df).symbolId = _ from hi.anchorOf]
    exact hp

theorem IsEdge.eq_of_key [Rounding] (hplaced : index.ItemsPlaced) (h : IsEdge index e) (h' : IsEdge index e')
    (hkey : e.key = e'.key) : e = e' := by
  -- both edges, read with their endpoints in anchor order
  have hordered : ∀ {e : EdgeRow}, IsEdge index e →
      ∃ i j, index.HasItem i ∧ index.HasItem j ∧ EdgeOf i j e := by
    rintro e ⟨i, j, hi, hj, ⟨-, h⟩ | ⟨-, h⟩⟩
    · exact ⟨i, j, hi, hj, h⟩
    · exact ⟨j, i, hj, hi, h⟩
  have hends : ∀ {i j : Item} {e : EdgeRow}, EdgeOf i j e → e.key = (i.anchor.key, j.anchor.key) := by
    rintro i j e ⟨-, ⟨-, rfl⟩ | ⟨-, -, rfl⟩⟩
    · rfl
    · rfl
  obtain ⟨i, j, hi, hj, hedge⟩ := hordered h
  obtain ⟨i', j', hi', hj', hedge'⟩ := hordered h'
  rw [hends hedge, hends hedge', Prod.mk.injEq] at hkey
  obtain rfl := hplaced.hasItem_eq hi hi' hkey.1
  obtain rfl := hplaced.hasItem_eq hj hj' hkey.2
  rcases hedge with ⟨-, ⟨hh, rfl⟩ | ⟨hh, -, rfl⟩⟩ <;> rcases hedge' with ⟨-, ⟨hh', rfl⟩ | ⟨hh', -, rfl⟩⟩
  · rfl
  · exact absurd hh hh'
  · exact absurd hh' hh
  · rfl

theorem IsPosting.eq_of_key [Rounding] (hplaced : index.ItemsPlaced) (h : IsPosting index df p)
    (h' : IsPosting index df p') (hkey : p.key = p'.key) : p = p' := by
  obtain ⟨i, hi, hp⟩ := h
  obtain ⟨i', hi', hp'⟩ := h'
  obtain ⟨token, -, rfl⟩ := mem_map.mp hp
  obtain ⟨token', -, rfl⟩ := mem_map.mp hp'
  simp only [PostingRow.key, Prod.mk.injEq] at hkey
  obtain rfl := hplaced.hasItem_eq hi hi' (by rw [Anchor.key, Anchor.key, hkey.2.1, hkey.2.2])
  rw [hkey.1]

/-! ## 5. Passes -/

/-- The rows stored, once what is staged is flushed. -/
def Walk.edges (w : Walk) : List EdgeRow := insertOrIgnore EdgeRow.key w.gen.edges w.batch

/-- The postings of a walk, over those stored. -/
def Walk.postingRows (w : Walk) : List PostingRow :=
  insertOrIgnore PostingRow.key w.gen.postings (w.postings.flatMap (·.rows))

/-- One build: its number, what it is toward and under, and where it stands. -/
structure Generation.SameBuild (g g' : Generation) : Prop where
  generation : g'.generation = g.generation
  status : g'.status = g.status
  normalizerVersion : g'.normalizerVersion = g.normalizerVersion
  sourceRevision : g'.sourceRevision = g.sourceRevision
  postingsWritten : g'.postingsWritten = g.postingsWritten

theorem Generation.SameBuild.refl (g : Generation) : g.SameBuild g := ⟨rfl, rfl, rfl, rfl, rfl⟩

theorem Generation.SameBuild.trans {g'' : Generation} (h : g.SameBuild g') (h' : g'.SameBuild g'') :
    g.SameBuild g'' :=
  ⟨h'.1.trans h.1, h'.2.trans h.2, h'.3.trans h.3, h'.4.trans h.4, h'.5.trans h.5⟩

theorem Generation.SameBuild.flush (h : g.SameBuild w.gen) : g.SameBuild w.flush.gen :=
  ⟨h.1, h.2, h.3, h.4, h.5⟩

theorem Generation.SameBuild.resumable (h : g.SameBuild g') (hg : g.resumable revision = true) :
    g'.resumable revision = true := by
  rw [Generation.resumable, h.sourceRevision, h.normalizerVersion, h.postingsWritten]
  exact hg

theorem Generation.sameBuild_pinned (g : Generation) (tokenDf : List (TokenHash × Int)) :
    g.SameBuild (g.pinned tokenDf) := by
  unfold pinned
  split
  · exact ⟨rfl, rfl, rfl, rfl, rfl⟩
  · exact .refl g

/-- **What a walk has done when it stops**: it handled a front part of the symbols, and all of them
    unless it was cut short, after a flush. -/
structure Walked [Rounding] (index : Index) (df : TokenHash → Option Int) (todo : List SymbolBag) (w w' : Walk)
    (cut : Bool) : Prop where
  front : ∃ done rest, todo = done ++ rest ∧ (cut = false → rest = []) ∧
    w'.edges = insertOrIgnore EdgeRow.key w.edges (done.flatMap (emittedEdges index df)) ∧
    w'.postingRows = insertOrIgnore PostingRow.key w.postingRows
      (done.flatMap (emittedPostings index)) ∧
    w'.cursor = (done.getLast?.map (·.symbolId)).getD w.cursor
  same : w.gen.SameBuild w'.gen
  epoch : w'.gen.dfEpoch = w.gen.dfEpoch

theorem Walked.flush [Rounding] (h : Walked index df todo w w' cut) : Walked index df todo w w'.flush cut :=
  ⟨h.front, h.same.flush, h.epoch⟩

theorem Walked.trans [Rounding] {w'' : Walk} (h : Walked index df todo w w' false)
    (h' : Walked index df todo' w' w'' cut) : Walked index df (todo ++ todo') w w'' cut := by
  obtain ⟨⟨done, rest, hsplit, hcut, he, hp, hc⟩, hsame, hepoch⟩ := h
  obtain ⟨⟨done', rest', hsplit', hcut', he', hp', hc'⟩, hsame', hepoch'⟩ := h'
  obtain rfl := hcut rfl
  refine ⟨⟨done ++ done', rest', by rw [hsplit, hsplit', append_nil, append_assoc], hcut', ?_, ?_, ?_⟩,
    hsame.trans hsame', hepoch'.trans hepoch⟩
  · rw [he', he, flatMap_append, insertOrIgnore_append]
  · rw [hp', hp, flatMap_append, insertOrIgnore_append]
  · rw [hc', hc, getLast?_append]
    cases done'.getLast? with
    | none => rfl
    | some b => rfl

theorem walked_stage [Rounding] (hanchor : anchorOf index anyFile bag.symbolId = some sAnchor) (w : Walk)
    (hcut : cut = false → todo = []) :
    Walked index df (bag :: todo) w (w.stage bag sAnchor (buildEdges (loadBags index anyFile df)
      (anchorOf index anyFile) bag sAnchor)) cut := by
  refine ⟨⟨[bag], todo, rfl, hcut, ?_, ?_, rfl⟩, .refl _, rfl⟩
  · rw [flatMap_singleton, emittedEdges, hanchor]
    exact insertOrIgnore_append _ _ _
  · rw [flatMap_singleton, emittedPostings, hanchor]
    simp only [Walk.postingRows, Walk.stage, Option.map_some, Option.getD_some]
    split
    next hempty =>
      rw [isEmpty_iff.mp hempty]
      rfl
    next =>
      rw [flatMap_append, flatMap_singleton]
      exact insertOrIgnore_append _ _ _

theorem walked_walkSymbols [Rounding] (hall : ∀ bag ∈ todo, anchorOf index anyFile bag.symbolId ≠ none)
    (batchSize : Nat) (late : Nat → Bool) (w : Walk) :
    Walked index df todo w
      (walkSymbols (loadBags index anyFile df) (anchorOf index anyFile) batchSize late todo w).1
      (walkSymbols (loadBags index anyFile df) (anchorOf index anyFile) batchSize late todo w).2 := by
  induction todo generalizing w with
  | nil => exact ⟨⟨[], [], rfl, fun _ => rfl, rfl, rfl, rfl⟩, .refl _, rfl⟩
  | cons bag todo ih =>
    have hrest := fun w => ih (forall_mem_cons.mp hall).2 w
    cases hanchor : anchorOf index anyFile bag.symbolId with
    | none => exact absurd hanchor (hall bag mem_cons_self)
    | some sAnchor =>
      have hone : Walked index df [bag] w _ false := walked_stage hanchor w fun _ => rfl
      simp only [walkSymbols, hanchor]
      split
      · split
        · exact Walked.flush (walked_stage hanchor w (fun h : true = false => nomatch h))
        · exact hone.flush.trans (hrest _)
      · exact hone.trans (hrest _)

/-- A generation being built holds what the symbols up to its cursor emit. -/
structure Staged [Rounding] (index : Index) (gen : Generation) : Prop where
  edges : ∀ e, e ∈ gen.edges ↔ ∃ bag ∈ loadBags index anyFile gen.epochDf,
    bag.symbolId ≤ gen.cursorSymbolId ∧ e ∈ emittedEdges index gen.epochDf bag
  postings : ∀ p, p ∈ gen.postings ↔ ∃ bag ∈ loadBags index anyFile gen.epochDf,
    bag.symbolId ≤ gen.cursorSymbolId ∧ p ∈ emittedPostings index bag
  distinctEdges : (gen.edges.map EdgeRow.key).Nodup
  distinctPostings : (gen.postings.map PostingRow.key).Nodup

/-- **A generation that is the graph of an index**, under the frequencies it pinned. -/
structure Built [Rounding] (index : Index) (gen : Generation) : Prop where
  edges : ∀ e, e ∈ gen.edges ↔ IsEdge index e
  postings : ∀ p, p ∈ gen.postings ↔ IsPosting index gen.epochDf p
  distinctEdges : (gen.edges.map EdgeRow.key).Nodup
  distinctPostings : (gen.postings.map PostingRow.key).Nodup

theorem Generation.epochDf_congr (h : g'.dfEpoch = g.dfEpoch) : g'.epochDf = g.epochDf := by
  funext token
  rw [epochDf, epochDf, h]

theorem pending_of_done (h : pendingBags index gen = done ++ rest) (hbag : bag ∈ done) :
    bag ∈ loadBags index anyFile gen.epochDf ∧ gen.cursorSymbolId < bag.symbolId := by
  have hmem : bag ∈ pendingBags index gen := h ▸ mem_append_left rest hbag
  simpa [pendingBags] using hmem

theorem le_cursor_iff (h : pendingBags index gen = done ++ rest)
    (hbag : bag ∈ loadBags index anyFile gen.epochDf) :
    bag.symbolId ≤ (done.getLast?.map (·.symbolId)).getD gen.cursorSymbolId ↔
      bag.symbolId ≤ gen.cursorSymbolId ∨ bag ∈ done := by
  have hasc : (done ++ rest).Pairwise fun x y => x.symbolId < y.symbolId := by
    rw [← h]
    exact ascending_loadBags.sublist filter_sublist
  have hafter := fun b (hb : b ∈ done) => (pending_of_done h hb).2
  rcases eq_nil_or_concat done with rfl | ⟨front, last, rfl⟩
  · simp
  rw [concat_eq_append] at *
  rw [getLast?_concat, Option.map_some, Option.getD_some]
  constructor
  · intro hle
    by_cases hc : bag.symbolId ≤ gen.cursorSymbolId
    · exact .inl hc
    have hmem : bag ∈ pendingBags index gen :=
      mem_filter.mpr ⟨hbag, decide_eq_true (not_le.mp hc)⟩
    rw [h] at hmem
    refine .inr ((mem_append.mp hmem).resolve_right fun hrest => ?_)
    have := (pairwise_append.mp hasc).2.2 last (by simp) bag hrest
    exact absurd hle (not_le.mpr this)
  · rintro (hle | hmem)
    · exact hle.trans (hafter last (by simp)).le
    · rcases mem_append.mp hmem with hmem | hmem
      · exact ((pairwise_append.mp (pairwise_append.mp hasc).1).2.2 bag hmem last (by simp)).le
      · rw [mem_singleton.mp hmem]

theorem rows_of_handled {α κ : Type} [DecidableEq κ] {key : α → κ} {rows rows' : List α}
    {emitted : SymbolBag → List α} (hsplit : pendingBags index gen = done ++ rest)
    (hrows : ∀ r, r ∈ rows ↔ ∃ bag ∈ loadBags index anyFile gen.epochDf,
      bag.symbolId ≤ gen.cursorSymbolId ∧ r ∈ emitted bag) (hnodup : (rows.map key).Nodup)
    (hfixed : ∀ r s, (∃ bag ∈ loadBags index anyFile gen.epochDf, r ∈ emitted bag) →
      (∃ bag ∈ loadBags index anyFile gen.epochDf, s ∈ emitted bag) → key r = key s → r = s)
    (hins : rows' = insertOrIgnore key rows (done.flatMap emitted)) :
    (rows'.map key).Nodup ∧ ∀ r, r ∈ rows' ↔ ∃ bag ∈ loadBags index anyFile gen.epochDf,
      bag.symbolId ≤ (done.getLast?.map (·.symbolId)).getD gen.cursorSymbolId ∧ r ∈ emitted bag := by
  have hall : ∀ r ∈ rows ++ done.flatMap emitted,
      ∃ bag ∈ loadBags index anyFile gen.epochDf, r ∈ emitted bag := by
    intro r hr
    rcases mem_append.mp hr with hr | hr
    · obtain ⟨bag, hbag, -, hr⟩ := (hrows r).mp hr
      exact ⟨bag, hbag, hr⟩
    · obtain ⟨bag, hbag, hr⟩ := mem_flatMap.mp hr
      exact ⟨bag, (pending_of_done hsplit hbag).1, hr⟩
  refine ⟨hins ▸ nodup_insertOrIgnore hnodup _, fun r => ?_⟩
  rw [hins, mem_insertOrIgnore fun r hr s hs => hfixed r s (hall r hr) (hall s hs), hrows,
    mem_flatMap]
  constructor
  · rintro (⟨bag, hbag, hle, hr⟩ | ⟨bag, hdone, hr⟩)
    · exact ⟨bag, hbag, (le_cursor_iff hsplit hbag).mpr (.inl hle), hr⟩
    · have hbag := (pending_of_done hsplit hdone).1
      exact ⟨bag, hbag, (le_cursor_iff hsplit hbag).mpr (.inr hdone), hr⟩
  · rintro ⟨bag, hbag, hle, hr⟩
    rcases (le_cursor_iff hsplit hbag).mp hle with hle | hdone
    · exact .inl ⟨bag, hbag, hle, hr⟩
    · exact .inr ⟨bag, hdone, hr⟩

theorem Staged.built [Rounding] (hplaced : index.ItemsPlaced) (hlen : index.HashFixesLength)
    (h : Staged index gen) (hall : ∀ bag ∈ loadBags index anyFile gen.epochDf,
      bag.symbolId ≤ gen.cursorSymbolId) : Built index gen where
  edges e := by
    rw [h.edges, ← mem_emittedEdges_iff gen.epochDf hplaced hlen]
    exact exists_congr fun bag => and_congr_right fun hbag => and_iff_right (hall bag hbag)
  postings p := by
    rw [h.postings, ← mem_emittedPostings_iff]
    exact exists_congr fun bag => and_congr_right fun hbag => and_iff_right (hall bag hbag)
  distinctEdges := h.distinctEdges
  distinctPostings := h.distinctPostings

/-- **A walk from the cursor of a generation stages the symbols it handled**, and gives the whole
graph when it was not cut short. -/
theorem staged_of_walked [Rounding] (hplaced : index.ItemsPlaced) (hlen : index.HashFixesLength)
    (hstaged : Staged index gen)
    (hw : Walked index gen.epochDf (pendingBags index gen) ⟨gen, gen.cursorSymbolId, [], [], 0⟩ w cut) :
    Staged index w.flush.gen ∧ (cut = false → Built index w.flush.gen) := by
  obtain ⟨⟨done, rest, hsplit, hcut, hedges, hpostings, hcursor⟩, -, hepoch⟩ := hw
  obtain ⟨hnodup, hupTo⟩ := rows_of_handled hsplit hstaged.edges hstaged.distinctEdges
    (fun e e' he he' => ((mem_emittedEdges_iff gen.epochDf hplaced hlen).mp he).eq_of_key hplaced
      ((mem_emittedEdges_iff gen.epochDf hplaced hlen).mp he')) hedges
  obtain ⟨hnodup', hupTo'⟩ := rows_of_handled hsplit hstaged.postings hstaged.distinctPostings
    (fun p p' hp hp' =>
      (mem_emittedPostings_iff.mp hp).eq_of_key hplaced (mem_emittedPostings_iff.mp hp')) hpostings
  have hepoch : w.flush.gen.epochDf = gen.epochDf := epochDf_congr hepoch
  have hcur : w.flush.gen.cursorSymbolId =
      (done.getLast?.map (·.symbolId)).getD gen.cursorSymbolId := hcursor
  rw [← hcur, ← hepoch] at hupTo hupTo'
  have hstaged' : Staged index w.flush.gen := ⟨hupTo, hupTo', hnodup, hnodup'⟩
  refine ⟨hstaged', fun hnot => hstaged'.built hplaced hlen fun bag hbag => ?_⟩
  rw [hepoch] at hbag
  rw [hcur, le_cursor_iff hsplit hbag]
  refine or_iff_not_imp_left.mpr fun hc => ?_
  have hmem : bag ∈ pendingBags index gen := mem_filter.mpr ⟨hbag, decide_eq_true (not_le.mp hc)⟩
  rwa [hsplit, hcut hnot, append_nil] at hmem

/-- **A build under way**: one generation is building, and holds what the symbols up to its cursor
    emit. -/
structure Underway [Rounding] (revision : Revision) (db : Database) (gen : Generation) : Prop where
  stored : ∃ kept, db.generations = kept ++ [gen] ∧
    ∀ g ∈ kept, g.status ≠ .building ∧ g.generation ≠ gen.generation
  status : gen.status = .building
  resumable : gen.resumable revision = true
  staged : Staged db.index gen

/-- **A published graph**: the one generation there is, live, is the graph of the index. -/
structure Published [Rounding] (revision : Revision) (db : Database) (gen : Generation) : Prop where
  only : db.generations = [gen]
  live : db.live = some gen.generation
  status : gen.status = .complete
  resumable : gen.resumable revision = true
  counted : gen.postingsRowCount = gen.postings.length
  built : Built db.index gen

theorem Published.liveGeneration [Rounding] (h : Published revision db gen) : db.liveGeneration = some gen := by
  rw [Database.liveGeneration, h.live, h.only]
  simp

theorem building_append {kept : List Generation} (h : db.generations = kept ++ [gen])
    (hkept : ∀ g ∈ kept, g.status ≠ .building) (hgen : gen.status = .building) :
    db.building = some gen := by
  have hnone : ∀ l : List Generation, (∀ g ∈ l, g.status ≠ .building) →
      l.foldl (fun best gen => if gen.status = .building ∧
        (best.all fun b => b.generation ≤ gen.generation) then some gen else best) none = none := by
    intro l hl
    induction l with
    | nil => rfl
    | cons g l ih =>
      rw [foldl_cons, if_neg fun hg => hl g mem_cons_self hg.1]
      exact ih (forall_mem_cons.mp hl).2
  rw [building, h, foldl_append, hnone kept hkept]
  simp [hgen]

theorem pos_of_mem_loadBags (h : bag ∈ loadBags index keep df) : 0 < bag.symbolId := by
  obtain ⟨-, item, ⟨row, hrow, rfl, -⟩, rfl⟩ := mem_loadBags.mp h
  exact index.positive row (index.mem_rows_of_eligible hrow)

theorem staged_iff_of_cursor [Rounding] (hcursor : gen.cursorSymbolId = 0) :
    Staged index gen ↔ gen.edges = [] ∧ gen.postings = [] := by
  have hnone : ∀ P : SymbolBag → Prop, ¬ ∃ bag ∈ loadBags index anyFile gen.epochDf,
      bag.symbolId ≤ gen.cursorSymbolId ∧ P bag := by
    rintro P ⟨bag, hbag, hle, -⟩
    exact (pos_of_mem_loadBags hbag).not_ge (hcursor ▸ hle)
  constructor
  · intro h
    exact ⟨eq_nil_iff_forall_not_mem.mpr fun e he => hnone _ ((h.edges e).mp he),
      eq_nil_iff_forall_not_mem.mpr fun p hp => hnone _ ((h.postings p).mp hp)⟩
  · rintro ⟨hedges, hpostings⟩
    exact ⟨fun e => iff_of_false (by simp [hedges]) (hnone _),
      fun p => iff_of_false (by simp [hpostings]) (hnone _), by simp [hedges], by simp [hpostings]⟩

section Passes

variable [Rounding] {digest : List (String × FileSha) → Revision}

/-- Nothing is building that a pass toward `revision` would resume. -/
def Database.NoneToResume (db : Database) (revision : Revision) : Prop :=
  (db.building.filter fun gen => gen.resumable revision) = none

theorem underway_openBuilding (h : db.NoneToResume revision ∨ ∃ gen, Underway revision db gen) :
    (db.openBuilding revision).1.index = db.index ∧
      Underway revision (db.openBuilding revision).1 (db.openBuilding revision).2 := by
  rcases h with hnone | ⟨gen, hgen⟩
  · unfold NoneToResume at hnone
    simp only [openBuilding, hnone]
    refine ⟨trivial, ⟨_, rfl, fun g hg => ?_⟩, rfl, by simp [resumable],
      (staged_iff_of_cursor rfl).mpr ⟨rfl, rfl⟩⟩
    refine ⟨of_decide_eq_true (mem_filter.mp hg).2, ?_⟩
    exact Nat.ne_of_lt (Nat.lt_succ_of_le (OrderedSet.le_foldl_max (mem_map_of_mem hg)))
  · obtain ⟨kept, hkept, hothers⟩ := hgen.stored
    have hbuilding := building_append hkept (fun g hg => (hothers g hg).1) hgen.status
    have hfilter : (db.building.filter fun gen => gen.resumable revision) = some gen := by
      rw [hbuilding, Option.filter_some, if_pos hgen.resumable]
    simp only [openBuilding, hfilter]
    exact ⟨trivial, hgen⟩

/-- The passes over one database: the first, and further ones as long as the budget ran out. -/
inductive Passes (digest : List (String × FileSha) → Revision) (db : Database) :
    Database → CloneEdgeStatus → Prop
  | first (options : CloneEdgeOptions) :
      Passes digest db (reconcileCloneEdgesPass digest options db).1
        (reconcileCloneEdgesPass digest options db).2
  | next {db' : Database} (options : CloneEdgeOptions) (h : Passes digest db db' .isPartial) :
      Passes digest db (reconcileCloneEdgesPass digest options db').1
        (reconcileCloneEdgesPass digest options db').2

theorem Staged.pinned (h : Staged index gen) (tokenDf : List (TokenHash × Int)) :
    Staged index (gen.pinned tokenDf) := by
  unfold Generation.pinned
  split
  next hcursor =>
    have hempty := (staged_iff_of_cursor hcursor).mp h
    have hcursor' : { gen with dfEpoch := tokenDf }.cursorSymbolId = 0 := hcursor
    exact (staged_iff_of_cursor hcursor').mpr hempty
  next => exact h

theorem walked_walkPending (index : Index) (options : CloneEdgeOptions) (gen : Generation) :
    Walked index gen.epochDf (pendingBags index gen) ⟨gen, gen.cursorSymbolId, [], [], 0⟩
      (walkPending index options gen).1 (walkPending index options gen).2 := by
  refine walked_walkSymbols (fun bag hbag => ?_) _ _ _
  obtain ⟨a, i, -, -, hanchor⟩ := exists_item_of_mem_loadBags (mem_filter.mp hbag).1
  rw [hanchor]
  exact Option.some_ne_none _

/-- What a pass leaves: a build under way when the budget ran out, else a published graph. -/
def PassLeaves (revision : Revision) (db : Database) : CloneEdgeStatus → Prop
  | .current => True
  | .isPartial => ∃ gen, Underway revision db gen
  | .complete => ∃ gen, Published revision db gen

theorem reconcileCloneEdgesPass_spec (options : CloneEdgeOptions) (hplaced : db.index.ItemsPlaced)
    (hlen : db.index.HashFixesLength)
    (h : db.NoneToResume (contentRevision digest db.index) ∨
      ∃ gen, Underway (contentRevision digest db.index) db gen) :
    (reconcileCloneEdgesPass digest options db).1.index = db.index ∧
      PassLeaves (contentRevision digest db.index) (reconcileCloneEdgesPass digest options db).1
        (reconcileCloneEdgesPass digest options db).2 := by
  obtain ⟨hindex, hunder⟩ := underway_openBuilding h
  unfold reconcileCloneEdgesPass
  generalize contentRevision digest db.index = revision at *
  simp only
  split
  · exact ⟨rfl, trivial⟩
  generalize db.openBuilding revision = opened at *
  obtain ⟨db', gen⟩ := opened
  simp only at hindex hunder ⊢
  have hwalked := walked_walkPending db'.index options (gen.pinned options.tokenDf)
  obtain ⟨hstaged, hbuilt⟩ := staged_of_walked (by rw [hindex]; exact hplaced)
    (by rw [hindex]; exact hlen) (hunder.staged.pinned options.tokenDf) hwalked
  have hsame := (gen.sameBuild_pinned options.tokenDf).trans hwalked.same.flush
  generalize walkPending db'.index options (gen.pinned options.tokenDf) = walked at *
  split
  · refine ⟨hindex, walked.1.flush.gen, ?_, hsame.status.trans hunder.status,
      hsame.resumable hunder.resumable, hstaged⟩
    obtain ⟨kept, hkept, hothers⟩ := hunder.stored
    refine ⟨kept, ?_, fun g hg => ⟨(hothers g hg).1, by
      rw [hsame.generation]
      exact (hothers g hg).2⟩⟩
    simp only [store, hkept, hsame.generation, map_append, map_singleton, if_true]
    congr 1
    exact (map_congr_left fun g hg => if_neg (hothers g hg).2).trans (map_id _)
  · have hgraph := hbuilt (Bool.eq_false_iff.mpr ‹_›)
    have hresumable := hsame.resumable hunder.resumable
    refine ⟨hindex, _, rfl, rfl, rfl, ?_, rfl,
      ⟨hgraph.edges, hgraph.postings, hgraph.distinctEdges, hgraph.distinctPostings⟩⟩
    simp only [resumable, Bool.and_eq_true] at hresumable ⊢
    exact ⟨hresumable.1, trivial⟩

/-- **However often a build is cut short and resumed, what it publishes is the graph of the index.** -/
theorem published_of_passes (hplaced : db.index.ItemsPlaced) (hlen : db.index.HashFixesLength)
    (hnone : db.NoneToResume (contentRevision digest db.index))
    (h : Passes digest db db' .complete) : db'.index = db.index ∧
      ∃ gen, Published (contentRevision digest db.index) db' gen := by
  -- after every pass but the last a build toward the same index is under way
  have hrun : ∀ {db' : Database} {status : CloneEdgeStatus}, Passes digest db db' status →
      db'.index = db.index ∧ PassLeaves (contentRevision digest db.index) db' status := by
    intro db' status h
    induction h with
    | first options => exact reconcileCloneEdgesPass_spec options hplaced hlen (.inl hnone)
    | next options _ ih =>
      obtain ⟨hmid, hunder⟩ := ih
      rw [← hmid] at hplaced hlen hunder ⊢
      exact reconcileCloneEdgesPass_spec options hplaced hlen (.inr hunder)
  exact hrun h

theorem walkSymbols_not_late {batchSize : Nat} (todo : List SymbolBag) (w : Walk) :
    (walkSymbols bags anchors batchSize (fun _ => false) todo w).2 = false := by
  induction todo generalizing w with
  | nil => rfl
  | cons bag todo ih =>
    unfold walkSymbols
    split
    · exact ih _
    · simp only [Bool.false_eq_true, if_false]
      split
      · exact ih _
      · exact ih _

theorem status_of_not_late {options : CloneEdgeOptions} (hlate : options.late = fun _ => false)
    (hlive : db.live = none) : (reconcileCloneEdgesPass digest options db).2 = .complete := by
  have hcurrent : db.graphCurrent (contentRevision digest db.index) = false := by
    simp [graphCurrent, liveGeneration, hlive]
  simp only [reconcileCloneEdgesPass, hcurrent, Bool.and_false, Bool.false_eq_true, if_false]
  rw [walkPending, hlate, walkSymbols_not_late, if_neg Bool.false_ne_true]

theorem passes_of_not_late (options : CloneEdgeOptions) (hlate : options.late = fun _ => false)
    (hlive : db.live = none) :
    Passes digest db (reconcileCloneEdgesPass digest options db).1 .complete :=
  status_of_not_late hlate hlive ▸ .first options

end Passes

end RagRat.Clones
