/-
  File:      RagRat/Clones/Delta.lean
  Subject:   The clone graph patched in place after a change of a few files.

  * `deltaPaths`, `deltaPathsFromHint` -- the files a delta recomputes, by a scan of the store or
    among the paths a pass touched;
  * `Hydrator` -- the stored postings looked up for the changed symbols, metered against a budget;
  * `applyCloneGraphDelta` -- one application: what it deletes, recomputes and inserts, or why not;
  * `mem_deltaPaths_iff` -- the files found are those whose fingerprinted symbols changed;
  * **`mem_emitDelta`** -- what is recomputed are the edges with an end in a changed file, and the
    postings of those files.
-/
import RagRat.Clones.Graph

namespace RagRat.Clones

open List
open Lib
open Buckets

variable {base index : Index} {gen : Generation} {path language : String} {file f f' : FileRow}
  {p : PostingRow} {paths : List String} {tokens justFetched : List TokenHash}
  {found : List (SymbolBag × Anchor)} {bag x y : SymbolBag} {sAnchor ax ay : Anchor} {a : SymbolId}
  {b b' : DeltaBatch} {anchors : SymbolId → Option Anchor}

/-! ## 1. The changed files -/

/-- How a delta finds the changed files. -/
inductive CloneDeltaHint where
  | fullScan
  | paths (touched : List String)
  | selfHeal

/-- Only a self-heal looks at an unchanged revision. -/
def CloneDeltaHint.scansWhenRevisionUnchanged : CloneDeltaHint → Bool
  | .selfHeal => true
  | _ => false

section Paths

variable (index : Index) (gen : Generation)

/-- A posting whose file is gone, changed or generated by now. -/
def stalePosting (p : PostingRow) : Bool :=
  !index.files.any fun f => f.path = p.path && f.sha256 = p.fileSha && !f.generated

/-- A file with fingerprinted symbols and no posting. -/
def freshFile (f : FileRow) : Bool :=
  !f.generated && (f.symbols.any fun s => s.fingerprint.any fun fp => fp.tokenBag ≠ .null) &&
    !gen.postings.any fun p => p.path = f.path

/-- The files of the delta, from the whole store. -/
def deltaPaths : List String :=
  OrderedSet.ofList (((gen.postings.filter (stalePosting index)).map (·.path)) ++
    (index.files.filter (freshFile gen)).map (·.path))

/-- The files of the delta among some paths, each looked up on its own. -/
def deltaPathsFromHint (hint : List String) : List String :=
  OrderedSet.ofList (hint.filter fun path =>
    (gen.postings.any fun p => p.path = path && stalePosting index p) ||
      index.files.any fun f => f.path = path && freshFile gen f)

/-- The files a hint comes to. -/
def CloneDeltaHint.changedPaths : CloneDeltaHint → List String
  | .fullScan => deltaPaths index gen
  | .selfHeal => deltaPaths index gen
  | .paths touched => deltaPathsFromHint index gen touched

end Paths

/-! ## 2. Candidates from the stored postings -/

/-- What one application has read of the postings, and the counts its budget is held against. -/
structure Hydrator where
  known : List TokenHash
  postingsByToken : List (TokenHash × List PostingRow)
  requested : Nat
  fetched : Nat

open Hydrator

/-- Nothing looked up yet. -/
def Hydrator.new : Hydrator := ⟨[], [], 0, 0⟩

/-- Rows streamed from the store; the budget may run out on any of them. -/
def Hydrator.stream (budget : Nat) : List PostingRow → Hydrator → Hydrator × Bool
  | [], h => (h, true)
  | p :: rows, h =>
    let h := { h with fetched := h.fetched + 1, requested := h.requested + 1 }
    if budget < h.requested then (h, false)
    else stream budget rows { h with postingsByToken := push h.postingsByToken p.tokenHash p }

/-- Fetch the rows of the tokens not asked for yet. -/
def Hydrator.loadPostings (h : Hydrator) (gen : Generation) (budget : Nat) (tokens : List TokenHash) :
    Hydrator × Option (List TokenHash) :=
  let missing := tokens.filter (· ∉ h.known)
  let (h, within) := stream budget (gen.postings.filter fun p => p.tokenHash ∈ missing)
    { h with known := h.known ++ missing }
  (h, if within then some missing else none)

/-- Rows asked for again count as well. -/
def Hydrator.chargeCached (budget : Nat) (justFetched : List TokenHash) :
    List TokenHash → Hydrator → Hydrator × Bool
  | [], h => (h, true)
  | token :: tokens, h =>
    if token ∈ justFetched then chargeCached budget justFetched tokens h
    else
      let h := { h with
        requested := h.requested + (get h.postingsByToken token).length }
      if budget < h.requested then (h, false)
      else chargeCached budget justFetched tokens h

/-- The place a posting is about. -/
def PostingRow.place (p : PostingRow) : String ×ₗ Nat := toLex (p.path, p.startByte)

/-- The places the postings of some tokens name outside the changed files, with their digests. -/
def Hydrator.anchorSha (h : Hydrator) (paths : List String) (tokens : List TokenHash) :
    List PostingRow :=
  Register.sorted PostingRow.place (Table.insertOrIgnore PostingRow.place []
    ((tokens.flatMap (get h.postingsByToken)).filter fun p => p.path ∉ paths))

/-- The bag at a place and the digest of its file now; the verify needs no frequencies. -/
def hydrateAnchor (index : Index) (place : String ×ₗ Nat) : Option (SymbolBag × Anchor) :=
  ((index.eligible anyFile).filterMap fun row =>
    if (rowAnchor row).key = place then
      (rowItem row).map fun item => (item.toBag row.2.id fun _ => none, rowAnchor row)
    else none).getLast?

/-- The candidates of a symbol; nothing once the budget is exhausted. -/
def Hydrator.candidates (h : Hydrator) (index : Index) (gen : Generation) (paths : List String)
    (budget : Nat) (tokens : List TokenHash) (language : String) :
    Hydrator × Option (List (SymbolBag × Anchor)) :=
  if tokens.isEmpty then (h, some [])
  else
    match h.loadPostings gen budget tokens with
    | (h, none) => (h, none)
    | (h, some justFetched) =>
      match chargeCached budget justFetched tokens h with
      | (h, false) => (h, none)
      | (h, true) => (h, some ((h.anchorSha paths tokens).filterMap fun p =>
          (hydrateAnchor index p.place).filter fun c =>
            c.1.language = language && c.2.fileSha = p.fileSha))

/-! ## 3. The rows of a delta -/

/-- The file is one of `paths`. -/
def inPaths (paths : List String) : FileRow → Bool := fun file => file.path ∈ paths

/-- The exact partners of a changed symbol in the files that did not change. -/
def oldStructPartners (index : Index) (bag : SymbolBag) (paths : List String) (sAnchor : Anchor) :
    List (Anchor × Nat) :=
  (index.eligible anyFile).filterMap fun row => row.2.fingerprint.bind fun fp =>
    if row.2.language = bag.language ∧ fp.structHash = bag.structHash ∧ fp.tokenBag ≠ .null ∧
        row.1.path ∉ paths ∧ (rowAnchor row).key ≠ sAnchor.key then
      some (rowAnchor row, fp.tokenLen)
    else none

/-- What a delta has emitted. -/
structure DeltaBatch where
  edges : List EdgeRow
  groups : List PostingGroup
  hydrator : Hydrator

section Rows

variable [Rounding] (index : Index) (gen : Generation) (paths : List String) (budget : Nat)

/-- The edges of a changed symbol to its candidates. -/
def corpusEdges (bag : SymbolBag) (sAnchor : Anchor) (candidates : List (SymbolBag × Anchor)) :
    List EdgeRow :=
  let partners := oldStructPartners index bag paths sAnchor
  (partners.map fun p => exactEdge bag sAnchor p.2 p.1) ++
    candidates.filterMap fun c =>
      if c.2.key = sAnchor.key ∨ c.2.key ∈ partners.map (·.1.key) then none
      else nearEdge bag sAnchor c.1 c.2

/-- The changed symbols against the files that did not change. -/
def emitAgainstCorpus (anchors : SymbolId → Option Anchor) :
    List SymbolBag → DeltaBatch → DeltaBatch × Bool
  | [], b => (b, true)
  | bag :: rest, b =>
    match anchors bag.symbolId with
    | none => emitAgainstCorpus anchors rest b
    | some sAnchor =>
      let sub := subBlockTokens bag clonePrecomputeTheta
      match b.hydrator.candidates index gen paths budget sub bag.language with
      | (h, none) => ({ b with hydrator := h }, false)
      | (h, some candidates) => emitAgainstCorpus anchors rest {
          edges := b.edges ++ corpusEdges index paths bag sAnchor candidates
          groups := if sub.isEmpty then b.groups else b.groups ++ [⟨sAnchor, sub⟩]
          hydrator := h }

/-- The pairs of changed symbols that share a sub-block token and the language. -/
def localPairs (bags : List SymbolBag) : List Pair :=
  OrderedSet.ofList ((subBlockIndex bags clonePrecomputeTheta).flatMap fun e =>
    emitPairs bags (fun _ => false) 0 e.2)

/-- The edge of a pair of changed symbols. -/
def pairEdge (bags : List SymbolBag) (anchors : SymbolId → Option Anchor)
    (edge : SymbolBag → Anchor → SymbolBag → Anchor → Option EdgeRow) (p : Pair) : Option EdgeRow :=
  (anchors (ofLex p).1).bind fun aAnchor => (anchors (ofLex p).2).bind fun bAnchor =>
    (bagOf bags (ofLex p).1).bind fun a => (bagOf bags (ofLex p).2).bind fun b =>
      edge a aAnchor b bAnchor

/-- The changed symbols against one another. -/
def deltaPairEdges (bags : List SymbolBag) (anchors : SymbolId → Option Anchor) : List EdgeRow :=
  let structPairs := addStructHashPairs bags []
  (structPairs.filterMap (pairEdge bags anchors fun a aAnchor b bAnchor =>
      some (exactEdge a aAnchor b.tokenLen bAnchor))) ++
    ((localPairs bags).filter (· ∉ structPairs)).filterMap (pairEdge bags anchors nearEdge)

/-- The bags of the changed files, under the frequencies of the generation. -/
def deltaBags : List SymbolBag := loadBags index (inPaths paths) gen.epochDf

/-- Everything a delta emits, unless the budget runs out. -/
def emitDelta : DeltaBatch × Bool :=
  let anchors := anchorOf index (inPaths paths)
  match emitAgainstCorpus index gen paths budget anchors (deltaBags index gen paths)
      ⟨[], [], new⟩ with
  | (b, false) => (b, false)
  | (b, true) =>
    ({ b with edges := b.edges ++ deltaPairEdges (deltaBags index gen paths) anchors }, true)

end Rows

/-- The generation without the rows of the changed files, with the rows emitted instead. -/
def Generation.patched (gen : Generation) (paths : List String) (batch : DeltaBatch)
    (revision : Revision) : Generation :=
  let keptEdges := gen.edges.filter fun e => e.a.path ∉ paths ∧ e.b.path ∉ paths
  let keptPostings := gen.postings.filter fun p => p.path ∉ paths
  let edges := Table.insertOrIgnore EdgeRow.key keptEdges batch.edges
  let postings := Table.insertOrIgnore PostingRow.key keptPostings (batch.groups.flatMap (·.rows))
  { gen with
    sourceRevision := revision
    deltaFilesApplied := gen.deltaFilesApplied + paths.length
    edgesWritten := gen.edgesWritten + (edges.length - keptEdges.length) -
      (gen.edges.length - keptEdges.length)
    postingsRowCount := gen.postingsRowCount + (postings.length - keptPostings.length) -
      (gen.postings.length - keptPostings.length)
    edges := edges
    postings := postings }

/-! ## 4. One application -/

/-- What a delta did. -/
inductive CloneDeltaStatus where
  | applied | noop | notEligible | escalate
deriving DecidableEq

/-- What one application reports. -/
structure CloneDeltaReport where
  status : CloneDeltaStatus
  reason : Option String
  filesChanged : Nat
  edgesAdded : Nat
  edgesRemoved : Nat
  fullRebuildOwed : Bool
  postingRowsRequested : Nat
  postingRowsFetched : Nat

/-- A report that changed no edge. -/
def report (status : CloneDeltaStatus) (reason : Option String) (filesChanged : Nat) :
    CloneDeltaReport :=
  ⟨status, reason, filesChanged, 0, 0, false, 0, 0⟩

/-- The least budget of posting rows. -/
def cloneDeltaMinPostingRowBudget : Nat := 100000

/-- One call: the overlay, the cap on changed files, how they are found, and the budget. -/
structure DeltaCall where
  linkedOverlay : Bool
  maxFiles : Nat
  hint : CloneDeltaHint
  postingRowBudget : Option Nat

/-- Twice the stored postings, and at least the floor. -/
def DeltaCall.budget (call : DeltaCall) (live : Generation) : Nat :=
  call.postingRowBudget.getD (max cloneDeltaMinPostingRowBudget (2 * live.postingsRowCount))

section

variable [Rounding] (db : Database) (live : Generation) (call : DeltaCall) (revision : Revision)

/-- Recompute the changed files of an eligible generation. -/
def patchLive
    (paths : List String) : Database × CloneDeltaReport :=
  match emitDelta db.index live paths (call.budget live) with
  | (batch, false) =>
    (db, { report .escalate (some
        "posting hydration exceeded the delta work budget — a full rebuild is cheaper")
        paths.length with
      postingRowsRequested := batch.hydrator.requested
      postingRowsFetched := batch.hydrator.fetched })
  | (batch, true) =>
    let gen := live.patched paths batch revision
    let kept := (live.edges.filter fun e => e.a.path ∉ paths ∧ e.b.path ∉ paths).length
    (db.store gen, { report .applied none paths.length with
      edgesAdded := gen.edges.length - kept
      edgesRemoved := live.edges.length - kept
      fullRebuildOwed := driftRebuildFiles ≤ live.deltaFilesApplied + paths.length
      postingRowsRequested := batch.hydrator.requested
      postingRowsFetched := batch.hydrator.fetched })

/-- The delta of a generation that may be patched. -/
def deltaEligible :
    Database × CloneDeltaReport :=
  if live.sourceRevision = revision ∧ call.hint.scansWhenRevisionUnchanged = false then
    (db, { report .noop none 0 with
      fullRebuildOwed := driftRebuildFiles ≤ live.deltaFilesApplied })
  else
    let paths := call.hint.changedPaths db.index live
    if call.maxFiles < paths.length then
      (db, report .escalate
        (some "more changed files than the delta cap — a full rebuild is cheaper") paths.length)
    else if paths.isEmpty then
      let owed := driftRebuildFiles ≤ live.deltaFilesApplied
      if revision ≠ live.sourceRevision then
        (db.store { live with sourceRevision := revision },
          { report .applied none 0 with fullRebuildOwed := owed })
      else (db, { report .noop none 0 with fullRebuildOwed := owed })
    else patchLive db live call revision paths

end

/-- One application of a delta toward the current revision. -/
def applyCloneGraphDelta [Rounding] (digest : List (String × FileSha) → Revision) (call : DeltaCall)
    (db : Database) : Database × CloneDeltaReport :=
  if call.linkedOverlay then (db, report .notEligible (some "linked-overlay scope") 0)
  else match db.liveGeneration with
    | none => (db, report .notEligible (some "no live generation") 0)
    | some live =>
      if live.normalizerVersion ≠ normVersion ∨ live.postingsWritten = false then
        (db, report .notEligible
          (some "live generation predates the current normalizer or postings") 0)
      else if db.generations.any fun gen => gen.status = .building then
        (db, report .notEligible (some "a full rebuild is in flight") 0)
      else if live.dfEpochExists = false then
        (db, report .notEligible (some "live generation has no df epoch (pre-epoch build)") 0)
      else deltaEligible db live call (contentRevision digest db.index)

/-! ## 5. What changed -/

/-- The fingerprinted symbols of a file. -/
def FileRow.items (file : FileRow) : List Item := file.symbols.filterMap fun s => rowItem (file, s)

/-- **What is indexed of a file is read from its content**: its path and digest fix its items. -/
def Index.ReadFrom (index : Index) (content : String → FileSha → Item → Prop) : Prop :=
  ∀ file ∈ index.files, ∀ item, item ∈ file.items ↔ content file.path file.sha256 item

/-- Every fingerprinted symbol has a bag that decodes. -/
def Index.Decodable (index : Index) : Prop :=
  ∀ row ∈ index.eligible anyFile, row.2.fingerprint.isSome → (rowItem row).isSome

/-- A path at which two indexes do not hold the same items. -/
def Changed (base index : Index) (path : String) : Prop :=
  ∃ item : Item, item.anchor.path = path ∧ ¬ (base.HasItem item ↔ index.HasItem item)

section Changes

variable {content : String → FileSha → Item → Prop} {item : Item}

theorem Index.hasItem_iff :
    index.HasItem item ↔ ∃ file ∈ index.files, file.generated = false ∧ item ∈ file.items := by
  constructor
  · rintro ⟨row, hrow, hitem⟩
    obtain ⟨hmem, hgen, -⟩ := Index.mem_eligible.mp hrow
    obtain ⟨file, hfile, hs⟩ := mem_flatMap.mp hmem
    obtain ⟨s, hsym, rfl⟩ := mem_map.mp hs
    exact ⟨file, hfile, hgen, mem_filterMap.mpr ⟨s, hsym, hitem⟩⟩
  · rintro ⟨file, hfile, hgen, hitem⟩
    obtain ⟨s, hs, hitem⟩ := mem_filterMap.mp hitem
    exact ⟨(file, s), Index.mem_eligible.mpr
      ⟨mem_flatMap.mpr ⟨file, hfile, mem_map_of_mem hs⟩, hgen, rfl⟩, hitem⟩

theorem FileRow.anchor_of_mem_items (h : item ∈ file.items) :
    item.anchor.path = file.path ∧ item.anchor.fileSha = file.sha256 := by
  obtain ⟨s, -, hitem⟩ := mem_filterMap.mp h
  rw [anchor_of_rowItem hitem]
  exact ⟨rfl, rfl⟩

theorem hasItem_iff_of_same_file (hbase : base.ReadFrom content) (hindex : index.ReadFrom content)
    (hf : f ∈ base.files) (hf' : f' ∈ index.files) (hg : f.generated = false)
    (hg' : f'.generated = false) (hpath : f.path = f'.path) (hsha : f.sha256 = f'.sha256)
    (hitem : item.anchor.path = f.path) : base.HasItem item ↔ index.HasItem item := by
  -- an item of a path lies in the one file of that path
  have hin : ∀ {index : Index} {f : FileRow}, f ∈ index.files → f.generated = false →
      item.anchor.path = f.path → (index.HasItem item ↔ item ∈ f.items) := by
    intro index f hf hg hpath
    rw [Index.hasItem_iff]
    constructor
    · rintro ⟨file, hfile, -, hmem⟩
      have hfile' : file = f := inj_on_of_nodup_map index.paths hfile hf
        ((FileRow.anchor_of_mem_items hmem).1.symm.trans hpath)
      exact hfile' ▸ hmem
    · intro hmem
      exact ⟨f, hf, hg, hmem⟩
  rw [hin hf hg hitem, hin hf' hg' (hitem.trans hpath), hbase f hf, hindex f' hf', hpath, hsha]

theorem stalePosting_eq_false_iff : stalePosting index p = false ↔
    ∃ f ∈ index.files, f.path = p.path ∧ f.sha256 = p.fileSha ∧ f.generated = false := by
  simp [stalePosting, and_assoc]

theorem Item.subBlock_ne_nil [Rounding] (item : Item) (df : TokenHash → Option Int) : item.subBlock df ≠ [] := by
  have hself : overlap (item.toBag 0 df) (item.toBag 0 df) = item.bag.size := by
    rw [overlap_eq_card, ← Multiset.inf_eq_inter, inf_idem, SymbolBag.card_contents]
    rfl
  obtain ⟨w, hw, -⟩ := exists_shared_subBlockToken (item.ranked_toBag 0 df) (item.ranked_toBag 0 df)
    precomputeTheta_pos precomputeTheta_le_one (by
      rw [max_self, hself]
      exact threshold_le precomputeTheta_le_one)
  exact ne_nil_of_mem hw

theorem exists_posting [Rounding] (df : TokenHash → Option Int) (h : base.HasItem item) :
    ∃ p, IsPosting base df p ∧ p.path = item.anchor.path ∧ p.fileSha = item.anchor.fileSha := by
  obtain ⟨w, hw⟩ := exists_mem_of_ne_nil _ (item.subBlock_ne_nil df)
  exact ⟨_, ⟨item, h, mem_map_of_mem hw⟩, rfl, rfl⟩

theorem IsPosting.exists_item [Rounding] {df : TokenHash → Option Int} (h : IsPosting base df p) :
    ∃ item w, base.HasItem item ∧ w ∈ item.subBlock df ∧
      p = ⟨w, item.anchor.path, item.anchor.startByte, item.anchor.fileSha⟩ := by
  obtain ⟨item, hitem, hp⟩ := h
  obtain ⟨w, hw, rfl⟩ := mem_map.mp hp
  exact ⟨item, w, hitem, hw, rfl⟩

theorem mem_deltaPaths : path ∈ deltaPaths index gen ↔
    (∃ p ∈ gen.postings, stalePosting index p = true ∧ p.path = path) ∨
      ∃ f ∈ index.files, freshFile gen f = true ∧ f.path = path := by
  rw [deltaPaths, OrderedSet.mem_ofList, mem_append]
  simp only [mem_map, mem_filter, and_assoc]

/-- **The files of a delta are those whose items changed** since the content the postings are of. -/
theorem mem_deltaPaths_iff [Rounding] (hbase : base.ReadFrom content) (hindex : index.ReadFrom content)
    (hdec : index.Decodable) (hpostings : ∀ p, p ∈ gen.postings ↔ IsPosting base gen.epochDf p) :
    path ∈ deltaPaths index gen ↔ Changed base index path := by
  rw [mem_deltaPaths]
  constructor
  · rintro (⟨p, hp, hstale, rfl⟩ | ⟨f, hf, hfresh, rfl⟩)
    · obtain ⟨item, w, hitem, -, rfl⟩ := ((hpostings p).mp hp).exists_item
      refine ⟨item, rfl, fun h => ?_⟩
      obtain ⟨f, hf, hg, hmem⟩ := index.hasItem_iff.mp (h.mp hitem)
      obtain ⟨hpath, hsha⟩ := FileRow.anchor_of_mem_items hmem
      exact Bool.false_ne_true
        ((stalePosting_eq_false_iff.mpr ⟨f, hf, hpath.symm, hsha.symm, hg⟩).symm.trans hstale)
    · simp only [freshFile, Bool.and_eq_true, Bool.not_eq_true', any_eq_true,
        Option.any_eq_true, decide_eq_true_eq, any_eq_false] at hfresh
      obtain ⟨⟨hg, s, hs, fp, hfp, -⟩, hnone⟩ := hfresh
      have hrow : (f, s) ∈ index.eligible anyFile := Index.mem_eligible.mpr
        ⟨mem_flatMap.mpr ⟨f, hf, mem_map_of_mem hs⟩, hg, rfl⟩
      obtain ⟨item, hitem⟩ := Option.isSome_iff_exists.mp
        (hdec (f, s) hrow (by rw [show (f, s).2.fingerprint = some fp from hfp]; rfl))
      refine ⟨item, by rw [anchor_of_rowItem hitem]; rfl, fun h => ?_⟩
      obtain ⟨p, hp, hpath, -⟩ := exists_posting gen.epochDf (h.mpr ⟨_, hrow, hitem⟩)
      refine hnone p ((hpostings p).mpr hp) ?_
      rw [hpath, anchor_of_rowItem hitem]
      rfl
  · rintro ⟨item, rfl, hchanged⟩
    by_contra hnot
    rw [not_or] at hnot
    obtain ⟨hstale, hfresh⟩ := hnot
    by_cases hany : ∃ p ∈ gen.postings, p.path = item.anchor.path
    · -- the file of a posting is what it was
      obtain ⟨p, hp, hpath⟩ := hany
      have hnot : stalePosting index p = false := by
        by_contra h
        exact hstale ⟨p, hp, Bool.eq_true_of_not_eq_false h, hpath⟩
      obtain ⟨f', hf', hpath', hsha', hg'⟩ := stalePosting_eq_false_iff.mp hnot
      obtain ⟨item', w, hitem', -, rfl⟩ := ((hpostings p).mp hp).exists_item
      obtain ⟨f, hf, hg, hmem⟩ := base.hasItem_iff.mp hitem'
      obtain ⟨hfpath, hfsha⟩ := FileRow.anchor_of_mem_items hmem
      exact hchanged (hasItem_iff_of_same_file hbase hindex hf hf' hg hg' (hfpath.symm.trans hpath'.symm)
        (hfsha.symm.trans hsha'.symm) (hpath.symm.trans hfpath))
    · -- without postings there were no items, and there are none
      refine hchanged (iff_of_false (fun h => hany ?_) fun h => hfresh ?_)
      · obtain ⟨p, hp, hpath, -⟩ := exists_posting gen.epochDf h
        exact ⟨p, (hpostings p).mpr hp, hpath⟩
      · obtain ⟨f, hf, hg, hmem⟩ := index.hasItem_iff.mp h
        obtain ⟨s, hs, hitem⟩ := mem_filterMap.mp hmem
        obtain ⟨fp, bag, hfp, hbag, -⟩ := rowItem_eq_some_iff.mp hitem
        have hpath := (FileRow.anchor_of_mem_items hmem).1.symm
        refine ⟨f, hf, ?_, hpath⟩
        simp only [freshFile, Bool.and_eq_true, Bool.not_eq_true', any_eq_true,
          Option.any_eq_true, decide_eq_true_eq, any_eq_false]
        refine ⟨⟨hg, s, hs, fp, hfp, by rw [hbag]; exact nofun⟩, fun p hp hp' => hany ⟨p, hp, ?_⟩⟩
        exact hp'.trans hpath

theorem mem_deltaPathsFromHint {hint : List String} :
    path ∈ deltaPathsFromHint index gen hint ↔ path ∈ hint ∧ path ∈ deltaPaths index gen := by
  rw [mem_deltaPaths, deltaPathsFromHint, OrderedSet.mem_ofList, mem_filter]
  simp only [Bool.or_eq_true, any_eq_true, Bool.and_eq_true, decide_eq_true_eq, and_comm]

/-- The hint names every path that changed; a scan needs none. -/
def CloneDeltaHint.Covers (hint : CloneDeltaHint) (base index : Index) : Prop :=
  ∀ touched, hint = .paths touched → ∀ path, Changed base index path → path ∈ touched

theorem mem_changedPaths_iff [Rounding] {hint : CloneDeltaHint} (hcovers : hint.Covers base index)
    (hbase : base.ReadFrom content) (hindex : index.ReadFrom content) (hdec : index.Decodable)
    (hpostings : ∀ p, p ∈ gen.postings ↔ IsPosting base gen.epochDf p) :
    path ∈ hint.changedPaths index gen ↔ Changed base index path := by
  have hscan : path ∈ deltaPaths index gen ↔ Changed base index path :=
    mem_deltaPaths_iff hbase hindex hdec hpostings
  cases hint with
  | fullScan => exact hscan
  | selfHeal => exact hscan
  | paths touched =>
    rw [CloneDeltaHint.changedPaths, mem_deltaPathsFromHint, hscan]
    exact and_iff_right_of_imp (hcovers touched rfl path)

end Changes

/-! ## 6. What the hydrator finds -/

/-- The cache holds all the postings of the tokens asked for, and no others. -/
structure Hydrator.Faithful (gen : Generation) (h : Hydrator) : Prop where
  filled : Buckets.Filled h.postingsByToken
  rows : ∀ token p, p ∈ Buckets.get h.postingsByToken token ↔
    token ∈ h.known ∧ p ∈ gen.postings ∧ p.tokenHash = token

section Hydrate

variable {budget : Nat} {h h' : Hydrator}

theorem Hydrator.faithful_new : new.Faithful gen where
  filled := ⟨List.Pairwise.nil, nofun⟩
  rows token p := by simp [Hydrator.new, Buckets.get]

theorem Hydrator.stream_spec {rows : List PostingRow}
    (hrun : Hydrator.stream budget rows h = (h', true)) (hfilled : Buckets.Filled h.postingsByToken) :
    Buckets.Filled h'.postingsByToken ∧ h'.known = h.known ∧ ∀ token p,
      p ∈ Buckets.get h'.postingsByToken token ↔
        p ∈ Buckets.get h.postingsByToken token ∨ p ∈ rows ∧ p.tokenHash = token := by
  induction rows generalizing h with
  | nil =>
    cases hrun
    exact ⟨hfilled, rfl, fun token p => by simp⟩
  | cons q rows ih =>
    rw [Hydrator.stream] at hrun
    split at hrun
    · cases hrun
    obtain ⟨hfilled', hknown, hrows⟩ := ih hrun (hfilled.push q.tokenHash q)
    refine ⟨hfilled', hknown, fun token p => ?_⟩
    rw [hrows, Buckets.get_push hfilled]
    by_cases hq : q.tokenHash = token
    · rw [if_pos hq, mem_append, mem_singleton, mem_cons]
      constructor
      · rintro ((h | rfl) | ⟨h, hp⟩)
        · exact .inl h
        · exact .inr ⟨.inl rfl, hq⟩
        · exact .inr ⟨.inr h, hp⟩
      · rintro (h | ⟨rfl | h, hp⟩)
        · exact .inl (.inl h)
        · exact .inl (.inr rfl)
        · exact .inr ⟨h, hp⟩
    · rw [if_neg hq, mem_cons]
      refine or_congr_right (and_congr_left fun hp => (or_iff_right fun h => hq ?_).symm)
      rw [← h, hp]

theorem Hydrator.Faithful.loadPostings (hf : h.Faithful gen)
    (hrun : h.loadPostings gen budget tokens = (h', some justFetched)) :
    h'.Faithful gen ∧ ∀ token ∈ tokens, token ∈ h'.known := by
  rw [Hydrator.loadPostings] at hrun
  cases hs : Hydrator.stream budget
      (gen.postings.filter fun p => p.tokenHash ∈ tokens.filter (· ∉ h.known))
      { h with known := h.known ++ tokens.filter (· ∉ h.known) } with
  | mk g within =>
    simp only [hs, Prod.mk.injEq] at hrun
    obtain ⟨rfl, hwithin⟩ := hrun
    cases within with
    | false => cases hwithin
    | true =>
      obtain ⟨hfilled, hknown, hrows⟩ := stream_spec hs hf.filled
      refine ⟨⟨hfilled, fun token p => ?_⟩, fun token ht => ?_⟩
      · rw [hrows, hf.rows, hknown]
        simp only [mem_filter, mem_append, decide_eq_true_eq]
        constructor
        · rintro (⟨hk, hp⟩ | ⟨⟨hp, hmissing⟩, rfl⟩)
          · exact ⟨.inl hk, hp⟩
          · exact ⟨.inr hmissing, hp, rfl⟩
        · rintro ⟨hk | hmissing, hp, rfl⟩
          · exact .inl ⟨hk, hp, rfl⟩
          · exact .inr ⟨⟨hp, hmissing⟩, rfl⟩
      · rw [hknown, mem_append, mem_filter, decide_eq_true_eq]
        by_cases hk : token ∈ h.known
        · exact .inl hk
        · exact .inr ⟨ht, hk⟩

theorem Hydrator.chargeCached_spec
    (hrun : chargeCached budget justFetched tokens h = (h', true)) :
    h'.known = h.known ∧ h'.postingsByToken = h.postingsByToken := by
  induction tokens generalizing h with
  | nil =>
    cases hrun
    exact ⟨rfl, rfl⟩
  | cons token tokens ih =>
    simp only [chargeCached] at hrun
    split at hrun
    · exact ih hrun
    · split at hrun
      · cases hrun
      · obtain ⟨hknown, hcache⟩ := ih hrun
        exact ⟨hknown, hcache⟩

/-- An item of the language outside the changed files, with a posting for one of the tokens. -/
def Candidate (index : Index) (gen : Generation) (paths : List String) (tokens : List TokenHash)
    (language : String) (c : SymbolBag × Anchor) : Prop :=
  ∃ id item, index.ItemAt anyFile id item ∧ item.language = language ∧ item.anchor.path ∉ paths ∧
    (∃ w ∈ tokens, (⟨w, item.anchor.path, item.anchor.startByte, item.anchor.fileSha⟩ : PostingRow) ∈
      gen.postings) ∧ c = (item.toBag id fun _ => none, item.anchor)

theorem hydrateAnchor_eq_some_iff (hplaced : index.ItemsPlaced) {place : String ×ₗ Nat}
    {c : SymbolBag × Anchor} : hydrateAnchor index place = some c ↔
      ∃ id item, index.ItemAt anyFile id item ∧ item.anchor.key = place ∧
        c = (item.toBag id fun _ => none, item.anchor) := by
  set l := (index.eligible anyFile).filterMap fun row => if (rowAnchor row).key = place then
      (rowItem row).map fun item => (item.toBag row.2.id fun _ => none, rowAnchor row)
    else none with hl
  have hmem : ∀ c, c ∈ l ↔ ∃ id item, index.ItemAt anyFile id item ∧ item.anchor.key = place ∧
      c = (item.toBag id fun _ => none, item.anchor) := by
    intro c
    rw [hl, mem_filterMap]
    constructor
    · rintro ⟨row, hrow, h⟩
      split at h
      next hkey =>
        obtain ⟨item, hitem, rfl⟩ := Option.map_eq_some_iff.mp h
        rw [← anchor_of_rowItem hitem] at hkey ⊢
        exact ⟨_, item, ⟨row, hrow, rfl, hitem⟩, hkey, rfl⟩
      next => cases h
    · rintro ⟨-, item, ⟨row, hrow, rfl, hitem⟩, hkey, rfl⟩
      rw [anchor_of_rowItem hitem] at hkey ⊢
      exact ⟨row, hrow, by rw [if_pos hkey, hitem, Option.map_some]⟩
  -- one item stands at a place, so the last entry is the only one
  have hone : ∀ c ∈ l, ∀ c' ∈ l, c = c' := by
    intro c hc c' hc'
    obtain ⟨a, i, hi, hkey, rfl⟩ := (hmem c).mp hc
    obtain ⟨b, j, hj, hkey', rfl⟩ := (hmem c').mp hc'
    obtain ⟨rfl, rfl⟩ := hplaced.itemAt_eq hi hj (hkey.trans hkey'.symm)
    rfl
  show l.getLast? = some c ↔ _
  rw [← hmem]
  constructor
  · exact mem_of_getLast?
  · intro hc
    rw [getLast?_eq_some_getLast (ne_nil_of_mem hc)]
    exact congrArg some (hone _ (getLast_mem _) c hc)

theorem Hydrator.Faithful.candidates (hf : h.Faithful gen) (hplaced : index.ItemsPlaced)
    (hsha : ∀ p ∈ gen.postings, ∀ p' ∈ gen.postings, p.place = p'.place → p.fileSha = p'.fileSha)
    (hrun : h.candidates index gen paths budget tokens language = (h', some found)) :
    h'.Faithful gen ∧ ∀ c, c ∈ found ↔ Candidate index gen paths tokens language c := by
  rw [Hydrator.candidates] at hrun
  split at hrun
  next hempty =>
    cases hrun
    refine ⟨hf, fun c => ?_⟩
    simp [Candidate, isEmpty_iff.mp hempty]
  split at hrun
  next => cases hrun
  next g justFetched hload =>
    obtain ⟨hg, hall⟩ := hf.loadPostings hload
    split at hrun
    next => cases hrun
    next k hcharge =>
      obtain ⟨hknown, hcache⟩ := chargeCached_spec hcharge
      cases hrun
      have hk : h'.Faithful gen := ⟨hcache ▸ hg.filled, by rw [hcache, hknown]; exact hg.rows⟩
      refine ⟨hk, fun c => ?_⟩
      -- the rows read for the tokens, outside the changed files
      have hread : ∀ p, p ∈ (tokens.flatMap (get h'.postingsByToken)).filter
          (fun p => p.path ∉ paths) ↔ p ∈ gen.postings ∧ p.tokenHash ∈ tokens ∧ p.path ∉ paths := by
        intro p
        simp only [mem_filter, mem_flatMap, hk.rows, decide_eq_true_eq]
        constructor
        · rintro ⟨⟨token, ht, -, hp, rfl⟩, hpath⟩
          exact ⟨hp, ht, hpath⟩
        · rintro ⟨hp, ht, hpath⟩
          exact ⟨⟨_, ht, hknown ▸ hall _ ht, hp, rfl⟩, hpath⟩
      simp only [mem_filterMap, anchorSha, Register.mem_sorted, Option.filter_eq_some_iff,
        hydrateAnchor_eq_some_iff hplaced, Bool.and_eq_true, decide_eq_true_eq]
      constructor
      · rintro ⟨p, hp, ⟨id, item, hitem, hkey, rfl⟩, hlang, hsha'⟩
        obtain ⟨hp, ht, hpath⟩ := (hread p).mp
          ((Table.mem_of_mem_insertOrIgnore hp).resolve_left not_mem_nil)
        obtain ⟨hpp, hps⟩ := Prod.mk.inj (toLex_inj.mp hkey)
        refine ⟨id, item, hitem, hlang, by rw [hpp]; exact hpath, ⟨_, ht, ?_⟩, rfl⟩
        rw [hpp, hps, hsha']
        exact hp
      · rintro ⟨id, item, hitem, hlang, hpath, ⟨w, hw, hp⟩, rfl⟩
        obtain ⟨p, hmem, hkey⟩ := Table.exists_key_insertOrIgnore PostingRow.place []
          (.inr ((hread _).mpr ⟨hp, hw, hpath⟩))
        have hpg := ((hread p).mp ((Table.mem_of_mem_insertOrIgnore hmem).resolve_left not_mem_nil)).1
        exact ⟨p, hmem, ⟨id, item, hitem, hkey.symm, rfl⟩, hlang, (hsha p hpg _ hp hkey).symm⟩

end Hydrate

/-! ## 7. What a delta emits -/

/-- A generation with the postings of an earlier content, and where its files may have changed
    since. -/
structure Patch [Rounding] (base index : Index) (gen : Generation) (paths : List String) : Prop where
  postings : ∀ p, p ∈ gen.postings ↔ IsPosting base gen.epochDf p
  same : ∀ item : Item, item.anchor.path ∉ paths → (base.HasItem item ↔ index.HasItem item)
  decodable : index.Decodable
  placed : index.ItemsPlaced
  hashes : index.HashFixesLength

section Emit

variable {budget : Nat} {i : Item} {e : EdgeRow} {bags : List SymbolBag}

theorem Patch.sha_eq [Rounding] (h : Patch base index gen paths) :
    ∀ p ∈ gen.postings, ∀ p' ∈ gen.postings, p.place = p'.place → p.fileSha = p'.fileSha := by
  intro p hp p' hp' hplace
  obtain ⟨i, w, hi, -, rfl⟩ := ((h.postings p).mp hp).exists_item
  obtain ⟨j, v, hj, -, rfl⟩ := ((h.postings p').mp hp').exists_item
  obtain ⟨f, hf, -, hif⟩ := base.hasItem_iff.mp hi
  obtain ⟨f', hf', -, hjf⟩ := base.hasItem_iff.mp hj
  obtain ⟨hip, his⟩ := FileRow.anchor_of_mem_items hif
  obtain ⟨hjp, hjs⟩ := FileRow.anchor_of_mem_items hjf
  have hpath : i.anchor.path = j.anchor.path := (Prod.mk.inj (toLex_inj.mp hplace)).1
  have hfile : f = f' :=
    inj_on_of_nodup_map base.paths hf hf' (hip.symm.trans (hpath.trans hjp))
  show i.anchor.fileSha = j.anchor.fileSha
  rw [his, hjs, hfile]

theorem mem_oldStructPartners (hdec : index.Decodable) {p : Anchor × Nat} :
    p ∈ oldStructPartners index bag paths sAnchor ↔
      ∃ j, index.HasItem j ∧ j.language = bag.language ∧ j.structHash = bag.structHash ∧
        j.anchor.path ∉ paths ∧ j.anchor.key ≠ sAnchor.key ∧ p = (j.anchor, j.bag.size) := by
  rw [oldStructPartners, mem_filterMap]
  constructor
  · rintro ⟨row, hrow, hp⟩
    obtain ⟨fp, hfp, hp⟩ := Option.bind_eq_some_iff.mp hp
    split at hp
    next hc =>
      obtain ⟨hlang, hhash, -, hpath, hkey⟩ := hc
      obtain ⟨j, hj⟩ := Option.isSome_iff_exists.mp (hdec row hrow (by rw [hfp]; rfl))
      have hitem := hj
      obtain ⟨fp', bag', hfp', hbag, rfl⟩ := rowItem_eq_some_iff.mp hj
      obtain rfl := Option.some.inj (hfp.symm.trans hfp')
      cases hp
      exact ⟨_, ⟨row, hrow, hitem⟩, hlang, hhash, hpath, hkey, by rw [fp.total bag' hbag]⟩
    next => cases hp
  · rintro ⟨j, ⟨row, hrow, hj⟩, hlang, hhash, hpath, hkey, rfl⟩
    obtain ⟨fp, bag', hfp, hbag, rfl⟩ := rowItem_eq_some_iff.mp hj
    refine ⟨row, hrow, ?_⟩
    rw [hfp, Option.bind_some, if_pos ⟨hlang, hhash, by rw [hbag]; exact nofun, hpath, hkey⟩,
      fp.total bag' hbag]

/-- **What a changed symbol emits against the unchanged files**: its edges to their items. No near
one is missing, since their postings are under the same frequencies. -/
theorem mem_corpusEdges [Rounding] (h : Patch base index gen paths) (hi : index.ItemAt anyFile a i)
    (hpath : i.anchor.path ∈ paths) (hfound : ∀ c, c ∈ found ↔ Candidate index gen paths
      (subBlockTokens (i.toBag a gen.epochDf) clonePrecomputeTheta) i.language c) :
    e ∈ corpusEdges index paths (i.toBag a gen.epochDf) i.anchor found ↔
      ∃ j, index.HasItem j ∧ j.anchor.path ∉ paths ∧ Joins i j e := by
  -- the symbol and an item of an unchanged file stand at different places
  have hne : ∀ {j : Item}, j.anchor.path ∉ paths → i.anchor.key ≠ j.anchor.key := by
    intro j hj hkey
    exact hj ((Prod.mk.inj (toLex_inj.mp hkey)).1 ▸ hpath)
  have hjoins : ∀ {j : Item}, index.HasItem j → j.anchor.path ∉ paths → ∀ b df', Joins i j e ↔ _ :=
    fun hj hjp b df' => joins_iff (hne hjp) (h.hashes i _ hi.hasItem hj) a b gen.epochDf df'
  -- among the items of the language an exact partner is one of the same structure
  have hpartner : ∀ {j : Item}, index.HasItem j → j.anchor.path ∉ paths → j.language = i.language →
      (j.anchor.key ∈ (oldStructPartners index (i.toBag a gen.epochDf) paths i.anchor).map
        (·.1.key) ↔ i.structHash = j.structHash) := by
    intro j hj hjp hlang
    rw [mem_map]
    constructor
    · rintro ⟨p, hp, hkey⟩
      obtain ⟨j', hj', -, hhash, -, -, rfl⟩ := (mem_oldStructPartners h.decodable).mp hp
      obtain rfl := h.placed.hasItem_eq hj' hj hkey
      exact hhash.symm
    · intro hhash
      exact ⟨_, (mem_oldStructPartners h.decodable).mpr
        ⟨j, hj, hlang, hhash.symm, hjp, (hne hjp).symm, rfl⟩, rfl⟩
  rw [corpusEdges, mem_append, mem_map, mem_filterMap]
  constructor
  · rintro (⟨p, hp, rfl⟩ | ⟨c, hc, he⟩)
    · obtain ⟨j, hj, hlang, hhash, hjp, -, rfl⟩ := (mem_oldStructPartners h.decodable).mp hp
      exact ⟨j, hj, hjp, (joins_iff (hne hjp) (h.hashes i j hi.hasItem hj) a 0 gen.epochDf
        gen.epochDf).mpr ⟨hlang.symm, .inl ⟨hhash.symm, rfl⟩⟩⟩
    · obtain ⟨b, j, hj, hlang, hjp, -, rfl⟩ := (hfound c).mp hc
      split at he
      next => cases he
      next hnot =>
        have hhash : i.structHash ≠ j.structHash := fun hhash =>
          hnot (.inr ((hpartner hj.hasItem hjp hlang).mpr hhash))
        exact ⟨j, hj.hasItem, hjp, (hjoins hj.hasItem hjp b _).mpr ⟨hlang.symm, .inr ⟨hhash, he⟩⟩⟩
  · rintro ⟨j, hjj, hjp, hedge⟩
    obtain ⟨b, hj⟩ := hasItem_iff_itemAt.mp hjj
    obtain ⟨hlang, ⟨hhash, rfl⟩ | ⟨hhash, hnear⟩⟩ := (hjoins hjj hjp b fun _ => none).mp hedge
    · exact .inl ⟨_, (mem_oldStructPartners h.decodable).mpr
        ⟨j, hjj, hlang.symm, hhash.symm, hjp, (hne hjp).symm, rfl⟩, rfl⟩
    have hv := verified_of_nearEdge hnear
    rw [overlap_toBag, ← overlap_toBag i j a 0 gen.epochDf gen.epochDf] at hv
    obtain ⟨w, hwi, hwj⟩ := exists_shared_subBlockToken (i.ranked_toBag a gen.epochDf)
      (j.ranked_toBag 0 gen.epochDf) precomputeTheta_pos precomputeTheta_le_one hv
    refine .inr ⟨_, (hfound _).mpr ⟨b, j, hj, hlang.symm, hjp, ⟨w, hwi, ?_⟩, rfl⟩, ?_⟩
    · exact (h.postings _).mpr ⟨j, (h.same j hjp).mpr hjj, mem_map_of_mem hwj⟩
    · rw [if_neg, hnear]
      rintro (hkey | hkey)
      · exact hne hjp hkey.symm
      · exact hhash ((hpartner hjj hjp hlang.symm).mp hkey)

theorem itemAt_inPaths : index.ItemAt (inPaths paths) a i ↔
    index.ItemAt anyFile a i ∧ i.anchor.path ∈ paths := by
  have hrow : ∀ {row : Row}, rowItem row = some i → (row ∈ index.eligible (inPaths paths) ↔
      row ∈ index.eligible anyFile ∧ i.anchor.path ∈ paths) := by
    intro row hi
    rw [anchor_of_rowItem hi]
    simp [Index.mem_eligible, inPaths, anyFile, rowAnchor, and_assoc]
  constructor
  · rintro ⟨row, hmem, hid, hi⟩
    obtain ⟨hmem, hpath⟩ := (hrow hi).mp hmem
    exact ⟨⟨row, hmem, hid, hi⟩, hpath⟩
  · rintro ⟨⟨row, hmem, hid, hi⟩, hpath⟩
    exact ⟨row, (hrow hi).mpr ⟨hmem, hpath⟩, hid, hi⟩

/-- **The first stage, when it stays within the budget.** Step by step over the changed symbols: the
cache stays faithful, and each adds its edges to the unchanged files and its postings. -/
theorem mem_emitAgainstCorpus [Rounding] (h : Patch base index gen paths)
    (hbags : ∀ bag ∈ bags, bag ∈ deltaBags index gen paths) (hb : b.hydrator.Faithful gen)
    (hrun : emitAgainstCorpus index gen paths budget (anchorOf index (inPaths paths)) bags b =
      (b', true)) :
    (∀ e, e ∈ b'.edges ↔ e ∈ b.edges ∨ ∃ bag ∈ bags, ∃ i, index.ItemAt anyFile bag.symbolId i ∧
      ∃ j, index.HasItem j ∧ j.anchor.path ∉ paths ∧ Joins i j e) ∧
    ∀ p, p ∈ b'.groups.flatMap (·.rows) ↔ p ∈ b.groups.flatMap (·.rows) ∨ ∃ bag ∈ bags,
      ∃ anchor, anchorOf index (inPaths paths) bag.symbolId = some anchor ∧
        p ∈ (PostingGroup.mk anchor (subBlockTokens bag clonePrecomputeTheta)).rows := by
  induction bags generalizing b with
  | nil =>
    cases hrun
    simp
  | cons bag bags ih =>
    obtain ⟨a, i, hi, rfl, hanchor⟩ := exists_item_of_mem_loadBags (hbags bag mem_cons_self)
    obtain ⟨hi, hpath⟩ := itemAt_inPaths.mp hi
    have hrest := (forall_mem_cons.mp hbags).2
    simp only [emitAgainstCorpus, hanchor] at hrun
    generalize hsub : subBlockTokens (i.toBag a gen.epochDf) clonePrecomputeTheta = sub at *
    cases hc : b.hydrator.candidates index gen paths budget sub (i.toBag a gen.epochDf).language with
    | mk k found =>
      rw [hc] at hrun
      cases found with
      | none => cases hrun
      | some found =>
        obtain ⟨hk, hfound⟩ := hb.candidates h.placed h.sha_eq hc
        obtain ⟨hedges, hgroups⟩ := ih hrest hk hrun
        refine ⟨fun e => ?_, fun p => ?_⟩
        · rw [hedges, mem_append, mem_corpusEdges h hi hpath (hsub ▸ hfound), or_assoc]
          simp only [mem_cons, exists_eq_or_imp]
          refine or_congr_right (or_congr_left ⟨fun he => ⟨i, hi, he⟩, ?_⟩)
          rintro ⟨i', hi', he⟩
          rwa [hi.unique hi']
        · have hone : p ∈ (if sub.isEmpty then b.groups else b.groups ++ [⟨i.anchor, sub⟩]).flatMap
              (·.rows) ↔ p ∈ b.groups.flatMap (·.rows) ∨ p ∈ (PostingGroup.mk i.anchor sub).rows := by
            split
            next hempty => simp [PostingGroup.rows, isEmpty_iff.mp hempty]
            next => rw [flatMap_append, mem_append, flatMap_singleton]
          rw [hgroups, hone, or_assoc]
          simp only [mem_cons, exists_eq_or_imp, hanchor, Option.some.injEq, exists_eq_left', hsub]

theorem mem_localPairs [Rounding] (hid : (bags.map (·.symbolId)).Nodup) {p : Pair} :
    p ∈ localPairs bags ↔ Related bags (fun x y => x.language = y.language ∧
      ∃ w, w ∈ subBlockTokens x clonePrecomputeTheta ∧ w ∈ subBlockTokens y clonePrecomputeTheta) p := by
  rw [localPairs, OrderedSet.mem_ofList, mem_flatMap]
  simp only [emitPairs_eq (fun _ => rfl)]
  simpa only [true_and, and_true] using mem_postingPairs hid _ (fun _ => True) (p := p)

theorem pairEdge_eq (hid : (bags.map (·.symbolId)).Nodup) (hx : x ∈ bags) (hy : y ∈ bags)
    (hax : anchors x.symbolId = some ax) (hay : anchors y.symbolId = some ay)
    (edge : SymbolBag → Anchor → SymbolBag → Anchor → Option EdgeRow) :
    pairEdge bags anchors edge (toLex (x.symbolId, y.symbolId)) = edge x ax y ay := by
  simp [pairEdge, hax, hay, bagOf_symbolId hid hx, bagOf_symbolId hid hy]

theorem mem_deltaPairEdges [Rounding] {df : TokenHash → Int} (hid : (bags.map (·.symbolId)).Nodup)
    (hdf : ∀ bag ∈ bags, Ranked df bag.tokens)
    (hanchors : ∀ bag ∈ bags, ∃ anchor, anchors bag.symbolId = some anchor) :
    e ∈ deltaPairEdges bags anchors ↔
      ∃ x ∈ bags, ∃ y ∈ bags, x.symbolId < y.symbolId ∧ ∃ ax ay, anchors x.symbolId = some ax ∧
        anchors y.symbolId = some ay ∧ PairEdge x ax y ay e := by
  have hexact : ∀ p, p ∈ addStructHashPairs bags [] ↔
      Related bags (fun x y => x.language = y.language ∧ x.structHash = y.structHash) p := by
    intro p
    rw [addStructHashPairs_eq, mem_exactPairs hid, or_iff_right not_mem_nil]
  rw [deltaPairEdges, mem_append, mem_filterMap, mem_filterMap]
  simp only [mem_filter, decide_eq_true_eq, hexact, mem_localPairs hid]
  constructor
  · rintro (⟨-, ⟨x, hx, y, hy, hlt, rfl, hlang, hhash⟩, he⟩ |
      ⟨-, ⟨⟨x, hx, y, hy, hlt, rfl, hlang, -⟩, hnot⟩, he⟩)
    · obtain ⟨ax, hax⟩ := hanchors x hx
      obtain ⟨ay, hay⟩ := hanchors y hy
      rw [pairEdge_eq hid hx hy hax hay, Option.some.injEq] at he
      exact ⟨x, hx, y, hy, hlt, ax, ay, hax, hay, hlang, .inl ⟨hhash, he.symm⟩⟩
    · obtain ⟨ax, hax⟩ := hanchors x hx
      obtain ⟨ay, hay⟩ := hanchors y hy
      rw [pairEdge_eq hid hx hy hax hay] at he
      exact ⟨x, hx, y, hy, hlt, ax, ay, hax, hay, hlang,
        .inr ⟨fun hhash => hnot ⟨x, hx, y, hy, hlt, rfl, hlang, hhash⟩, he⟩⟩
  · rintro ⟨x, hx, y, hy, hlt, ax, ay, hax, hay, hlang, ⟨hhash, rfl⟩ | ⟨hhash, he⟩⟩
    · exact .inl ⟨_, ⟨x, hx, y, hy, hlt, rfl, hlang, hhash⟩, by rw [pairEdge_eq hid hx hy hax hay]⟩
    · obtain ⟨w, hwx, hwy⟩ := exists_shared_subBlockToken (hdf x hx) (hdf y hy) precomputeTheta_pos
        precomputeTheta_le_one (verified_of_nearEdge he)
      refine .inr ⟨_, ⟨⟨x, hx, y, hy, hlt, rfl, hlang, w, hwx, hwy⟩, ?_⟩,
        (pairEdge_eq hid hx hy hax hay _).trans he⟩
      rintro ⟨x', hx', y', hy', -, hp, -, hhash'⟩
      obtain ⟨hxx, hyy⟩ := Prod.mk.inj (toLex_inj.mp hp)
      obtain rfl := inj_on_of_nodup_map hid hx hx' hxx
      obtain rfl := inj_on_of_nodup_map hid hy hy' hyy
      exact hhash hhash'

/-- **What a delta emits, when it stays within the budget**: the edges with an end in a changed file,
and the postings of those files. -/
theorem mem_emitDelta [Rounding] (h : Patch base index gen paths)
    (hrun : emitDelta index gen paths budget = (b, true)) :
    (∀ e, e ∈ b.edges ↔ ∃ i j, index.HasItem i ∧ index.HasItem j ∧ i.anchor.path ∈ paths ∧
      Joins i j e) ∧
    ∀ p, p ∈ b.groups.flatMap (·.rows) ↔ IsPosting index gen.epochDf p ∧ p.path ∈ paths := by
  unfold emitDelta at hrun
  simp only at hrun
  split at hrun
  next => cases hrun
  next b₀ hstage =>
    obtain ⟨hedges, hgroups⟩ := mem_emitAgainstCorpus h (fun bag hbag => hbag) faithful_new hstage
    obtain rfl := (Prod.mk.inj hrun).1
    have hpairs : ∀ e, e ∈ deltaPairEdges (deltaBags index gen paths)
        (anchorOf index (inPaths paths)) ↔ _ := fun e =>
      (mem_deltaPairEdges nodup_loadBags (fun bag hbag => ranked_loadBags hbag) (fun bag hbag => by
        obtain ⟨a, i, -, -, hanchor⟩ := exists_item_of_mem_loadBags hbag
        exact ⟨_, hanchor⟩)).trans (exists_pairEdge_iff (inPaths paths) gen.epochDf h.placed h.hashes)
    refine ⟨fun e => ?_, fun p => ?_⟩
    · rw [mem_append, hedges, or_iff_right not_mem_nil, hpairs]
      constructor
      · rintro (⟨bag, hbag, i, hi, j, hj, -, hedge⟩ | ⟨a, b, i, j, hi, hj, hedge⟩)
        · obtain ⟨a, i', hi', rfl⟩ := mem_loadBags.mp hbag
          obtain rfl := hi.unique hi'
          exact ⟨i, j, hi.hasItem, hj, (itemAt_inPaths.mp hi').2, hedge⟩
        · exact ⟨i, j, hi.hasItem, hj.hasItem, (itemAt_inPaths.mp hi).2, hedge⟩
      · rintro ⟨i, j, hii, hjj, hpath, hedge⟩
        obtain ⟨a, hi⟩ := hasItem_iff_itemAt.mp hii
        obtain ⟨b, hj⟩ := hasItem_iff_itemAt.mp hjj
        have hin := itemAt_inPaths.mpr ⟨hi, hpath⟩
        by_cases hjp : j.anchor.path ∈ paths
        · exact .inr ⟨a, b, i, j, hin, itemAt_inPaths.mpr ⟨hj, hjp⟩, hedge⟩
        · exact .inl ⟨_, mem_loadBags.mpr ⟨a, i, hin, rfl⟩, i, hi, j, hjj, hjp, hedge⟩
    · rw [hgroups]
      refine (or_iff_right not_mem_nil).trans ?_
      constructor
      · rintro ⟨bag, hbag, anchor, hanchor, hp⟩
        obtain ⟨a, i, hi, rfl, hanchor'⟩ := exists_item_of_mem_loadBags hbag
        obtain rfl := Option.some.inj (hanchor.symm.trans hanchor')
        obtain ⟨w, hw, rfl⟩ := mem_map.mp hp
        exact ⟨⟨i, hi.hasItem, mem_map_of_mem hw⟩, (itemAt_inPaths.mp hi).2⟩
      · rintro ⟨⟨i, hi, hp⟩, hpath⟩
        have hip : i.anchor.path ∈ paths := by
          obtain ⟨w, -, rfl⟩ := mem_map.mp hp
          exact hpath
        obtain ⟨a, hi⟩ := hasItem_iff_itemAt.mp hi
        have hin := itemAt_inPaths.mpr ⟨hi, hip⟩
        exact ⟨_, mem_loadBags.mpr ⟨a, i, hin, rfl⟩, i.anchor, hin.anchorOf, hp⟩

end Emit

end RagRat.Clones
