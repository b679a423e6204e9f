/-
  File:      RagRat/Clones/Precomputed.lean
  Subject:   Candidate pairs read from the persisted graph, next to the live read they stand in for.

  * `precomputedPairsIfEligible`, `pairsForQuery` -- the fast path and the choice of path;
  * `mem_precomputedPairs` -- on a published graph the fast path returns exactly the clone pairs;
  * **`precomputed_pairs_are_live_pairs_iff`** -- the two paths agree exactly when no clone pair is
    held together by over-shared tokens alone;
  * `hot_token_family_is_lost_live` -- 257 functions of one token bag, which the live read drops and
    the graph keeps.
-/
import RagRat.Clones.Graph

namespace RagRat.Clones

open List
open Lib
open OrderedSet

variable {db db₀ : Database} {df : TokenHash → Option Int} {θ : ℚ} {index : Index} {a b : SymbolId}
  {e : EdgeRow} {x y bag : SymbolBag} {p : Pair}

/-! ## 1. The two reads -/

/-- `(path, start_byte) -> (symbol_id, file_sha)` over the symbols of files not generated. -/
def anchorIndex (index : Index) (key : String ×ₗ Nat) : Option (SymbolId × FileSha) :=
  ((index.eligible anyFile).find? fun row => (rowAnchor row).key = key).map fun row =>
    (row.2.id, row.1.sha256)

/-- The live symbol at a stored endpoint, if the file is what it was. -/
def resolveEndpoint (index : Index) (anchor : Anchor) : Option SymbolId :=
  (anchorIndex index anchor.key).bind fun found =>
    if found.2 = anchor.fileSha then some found.1 else none

/-- The pair a stored edge gives a query: both ends live and in scope, and the overlap enough. -/
def edgePair [Rounding] (index : Index) (bags : List SymbolBag) (θ : ℚ) (e : EdgeRow) : Option Pair :=
  (resolveEndpoint index e.a).bind fun sa => (resolveEndpoint index e.b).bind fun sb =>
    if (bagOf bags sa).isSome ∧ (bagOf bags sb).isSome ∧
        threshold θ (max e.aTokenLen e.bTokenLen) ≤ e.overlap then some (pair sa sb)
    else none

/-- The pairs of the live generation, when there is one a query at `θ` may use. -/
def precomputedPairsIfEligible [Rounding] (db : Database) (bags : List SymbolBag) (θ : ℚ) : Option (List Pair) :=
  if θ < clonePrecomputeTheta then none
  else match db.liveGeneration with
    | none => none
    | some live =>
      if live.normalizerVersion ≠ normVersion then none
      else some (sortDedup (live.edges.filterMap (edgePair db.index bags θ)))

/-- The graph where it may be used, the live read elsewhere. -/
def pairsForQuery [Rounding] (db : Database) (bags : List SymbolBag) (θ : ℚ) : List Pair :=
  (precomputedPairsIfEligible db bags θ).getD (candidatePairsFromBags bags θ)

/-! ## 2. What the graph returns -/

section Graph

variable [Rounding] {revision : Revision} {gen : Generation} {i j : Item}

omit [Rounding] in
theorem resolveEndpoint_eq (hplaced : index.Placed) (hi : index.ItemAt anyFile a i) :
    resolveEndpoint index i.anchor = some a := by
  obtain ⟨row, hrow, rfl, hi⟩ := hi
  have hfind : ((index.eligible anyFile).find? fun r => (rowAnchor r).key = i.anchor.key) =
      some row := by
    rw [anchor_of_rowItem hi]
    refine Keyed.find?_eq_some_of_unique hrow (decide_eq_true rfl) fun found hfound hkey => ?_
    exact hplaced found (index.mem_rows_of_eligible hfound) row (index.mem_rows_of_eligible hrow)
      (of_decide_eq_true hkey)
  rw [resolveEndpoint, anchorIndex, hfind, anchor_of_rowItem hi]
  simp [rowAnchor]

theorem threshold_le_overlap_iff (he : EdgeOf i j e)
    (hlen : i.structHash = j.structHash → i.bag.size = j.bag.size) (h1 : θ ≤ 1) :
    threshold θ (max e.aTokenLen e.bTokenLen) ≤ e.overlap ↔ i.structHash = j.structHash ∨
      threshold θ (max i.bag.size j.bag.size) ≤ i.shared j := by
  obtain ⟨-, ⟨hhash, rfl⟩ | ⟨hhash, -, rfl⟩⟩ := he
  · refine iff_of_true ?_ (.inl hhash)
    show threshold θ (max i.bag.size j.bag.size) ≤ i.bag.size
    rw [← hlen hhash, max_self]
    exact threshold_le h1
  · exact (or_iff_right hhash).symm

theorem clonePair_toBag :
    ClonePair θ (i.toBag a df) (j.toBag b df) ↔ i.language = j.language ∧
      (i.structHash = j.structHash ∨ threshold θ (max i.bag.size j.bag.size) ≤ i.shared j) := by
  simp only [ClonePair, Item.contents_toBag]
  rfl

theorem clonePair_comm : ClonePair θ x y ↔ ClonePair θ y x := by
  simp only [ClonePair, eq_comm (a := x.language), eq_comm (a := x.structHash),
    max_comm x.tokenLen, Multiset.inter_comm x.contents]

theorem related_pair {bags : List SymbolBag} (hx : x ∈ bags) (hy : y ∈ bags)
    (hne : x.symbolId ≠ y.symbolId) (h : ClonePair θ x y) :
    Related bags (ClonePair θ) (pair x.symbolId y.symbolId) := by
  rcases lt_or_gt_of_ne hne with hlt | hlt
  · exact ⟨x, hx, y, hy, hlt, pair_of_lt hlt, h⟩
  · exact ⟨y, hy, x, hx, hlt, (pair_comm _ _).trans (pair_of_lt hlt), clonePair_comm.mp h⟩

theorem edgePair_eq_some_iff (hplaced : index.Placed) (hlen : index.HashFixesLength) (h1 : θ ≤ 1)
    (hi : index.ItemAt anyFile a i) (hj : index.ItemAt anyFile b j) (he : EdgeOf i j e) :
    edgePair index (loadBags index anyFile df) θ e = some p ↔ pair a b = p ∧
      ClonePair θ (i.toBag a df) (j.toBag b df) := by
  have hends : e.a = i.anchor ∧ e.b = j.anchor := by
    rcases he with ⟨-, ⟨-, rfl⟩ | ⟨-, -, rfl⟩⟩ <;> exact ⟨rfl, rfl⟩
  have hloaded : ∀ {a : SymbolId} {i : Item}, index.ItemAt anyFile a i →
      (bagOf (loadBags index anyFile df) a).isSome := by
    intro a i hi
    have hmem : i.toBag a df ∈ loadBags index anyFile df := mem_loadBags.mpr ⟨a, i, hi, rfl⟩
    exact Option.isSome_iff_exists.mpr ⟨_, bagOf_symbolId nodup_loadBags hmem⟩
  have hgate := threshold_le_overlap_iff he (hlen i j hi.hasItem hj.hasItem) h1
  rw [edgePair, hends.1, hends.2, resolveEndpoint_eq hplaced hi, resolveEndpoint_eq hplaced hj]
  simp only [Option.bind_some, hloaded hi, hloaded hj, true_and, hgate]
  rw [clonePair_toBag, and_iff_right he.1]
  split
  next hc => simp [hc]
  next hc => simp [hc]

theorem mem_precomputedPairs (h : Published revision db gen) (hplaced : db.index.Placed)
    (hlen : db.index.HashFixesLength) (hθ : clonePrecomputeTheta ≤ θ) (h1 : θ ≤ 1) :
    p ∈ gen.edges.filterMap (edgePair db.index (loadBags db.index anyFile df) θ) ↔
      Related (loadBags db.index anyFile df) (ClonePair θ) p := by
  rw [mem_filterMap]
  constructor
  · rintro ⟨e, he, hp⟩
    obtain ⟨a, b, i, j, hi, hj, hjoins⟩ := isEdge_iff_itemAt.mp ((h.built.edges e).mp he)
    -- the two orders of the endpoints are one argument
    wlog hlt : i.anchor.key < j.anchor.key generalizing a b i j
    · exact this b a j i hj hi (joins_comm.mp hjoins) (lt_of_le_of_ne (not_lt.mp hlt) hjoins.ne.symm)
    obtain ⟨rfl, hclone⟩ := (edgePair_eq_some_iff hplaced hlen h1 hi hj
      (hjoins.resolve_right fun h => h.1.asymm hlt).2).mp hp
    refine related_pair (mem_loadBags.mpr ⟨a, i, hi, rfl⟩) (mem_loadBags.mpr ⟨b, j, hj, rfl⟩)
      (fun hid => hlt.ne ?_) hclone
    obtain rfl : a = b := hid
    rw [hi.unique hj]
  · rintro ⟨x, hx, y, hy, hlt, rfl, hclone⟩
    obtain ⟨a, i, hi, rfl⟩ := mem_loadBags.mp hx
    obtain ⟨b, j, hj, rfl⟩ := mem_loadBags.mp hy
    have hne : i.anchor.key ≠ j.anchor.key := fun hkey =>
      ne_of_lt hlt (hplaced.itemsPlaced.itemAt_eq hi hj hkey).1
    rw [← pair_of_lt hlt]
    show ∃ e ∈ gen.edges, edgePair db.index _ θ e = some (pair a b)
    clear hx hy hlt
    wlog hkey : i.anchor.key < j.anchor.key generalizing a b i j
    · rw [pair_comm]
      exact this b j hj a i hi (clonePair_comm.mp hclone) hne.symm
        (lt_of_le_of_ne (not_lt.mp hkey) hne.symm)
    obtain ⟨e, hedge⟩ : ∃ e, EdgeOf i j e := by
      obtain ⟨hlang, hc⟩ := clonePair_toBag.mp hclone
      by_cases hhash : i.structHash = j.structHash
      · exact ⟨_, hlang, .inl ⟨hhash, rfl⟩⟩
      · exact ⟨_, hlang, .inr ⟨hhash, (threshold_mono_left hθ).trans (hc.resolve_left hhash), rfl⟩⟩
    exact ⟨e, (h.built.edges e).mpr ⟨i, j, hi.hasItem, hj.hasItem, .inl ⟨hkey, hedge⟩⟩,
      (edgePair_eq_some_iff hplaced hlen h1 hi hj hedge).mpr ⟨rfl, hclone⟩⟩

theorem pairsForQuery_eq (h : Published revision db gen) (hθ : clonePrecomputeTheta ≤ θ)
    (bags : List SymbolBag) : pairsForQuery db bags θ =
      ofList (gen.edges.filterMap (edgePair db.index bags θ)) := by
  have hversion : gen.normalizerVersion = normVersion := by
    have := h.resumable
    simp only [Generation.resumable, Bool.and_eq_true, decide_eq_true_eq] at this
    exact this.1.2
  rw [pairsForQuery, precomputedPairsIfEligible, if_neg (not_lt.mpr hθ), h.liveGeneration]
  simp only [hversion, ne_eq, not_true_eq_false, if_false, Option.getD_some, sortDedup_eq_ofList]

/-- No near pair of clones is held together by over-shared tokens alone. -/
def NoHotFamily (bags : List SymbolBag) (θ : ℚ) : Prop :=
  ∀ x ∈ bags, ∀ y ∈ bags, x.symbolId < y.symbolId → x.language = y.language →
    x.structHash ≠ y.structHash → verifiedClone x y θ = true → SharesCoolToken bags θ x y

end Graph

/-! ## 3. The two reads side by side -/

section Agree

variable {digest : List (String × FileSha) → Revision} {db₀ db : Database}
  {df : TokenHash → Option Int} {θ : ℚ}

/-- **The graph stands in for the live read exactly where no clone pair shares hot tokens only.** -/
theorem precomputed_pairs_are_live_pairs_iff [Rounding] (hplaced : db₀.index.Placed)
    (hlen : db₀.index.HashFixesLength) (hnone : db₀.NoneToResume (contentRevision digest db₀.index))
    (h : Passes digest db₀ db .complete) (hθ : clonePrecomputeTheta ≤ θ) (h1 : θ ≤ 1) :
    pairsForQuery db (loadBags db.index anyFile df) θ =
        candidatePairsFromBags (loadBags db.index anyFile df) θ ↔
      NoHotFamily (loadBags db.index anyFile df) θ := by
  obtain ⟨hindex, gen, hpub⟩ := published_of_passes hplaced.itemsPlaced hlen hnone h
  rw [← hindex] at hplaced hlen
  have hid : ((loadBags db.index anyFile df).map (·.symbolId)).Nodup := nodup_loadBags
  have hgraph : ∀ p, p ∈ pairsForQuery db (loadBags db.index anyFile df) θ ↔
      Related (loadBags db.index anyFile df) (ClonePair θ) p := by
    intro p
    rw [pairsForQuery_eq hpub hθ, mem_ofList, mem_precomputedPairs hpub hplaced hlen hθ h1]
  constructor
  · intro heq x hx y hy hlt hlang hhash hv
    have hclone : ClonePair θ x y := by
      refine ⟨hlang, .inr ?_⟩
      rw [← overlap_eq_card]
      exact verifiedClone_iff.mp hv
    have hmem := (hgraph _).mpr ⟨x, hx, y, hy, hlt, rfl, hclone⟩
    rw [heq, mem_candidatePairsFromBags hid] at hmem
    obtain ⟨x', hx', y', hy', -, hp, -, hcase⟩ := hmem
    rw [toLex_inj, Prod.mk.injEq] at hp
    obtain rfl := inj_on_of_nodup_map hid hx hx' hp.1
    obtain rfl := inj_on_of_nodup_map hid hy hy' hp.2
    exact (hcase.resolve_left hhash).1
  · intro hcool
    have hasc : Ascends (pairsForQuery db (loadBags db.index anyFile df) θ) := by
      rw [pairsForQuery_eq hpub hθ]
      exact ascends_ofList _
    refine hasc.ext (ascends_candidatePairsFromBags _ _) fun p => ?_
    rw [hgraph, mem_candidatePairsFromBags hid]
    refine related_congr fun x hx y hy hlt => and_congr_right fun hlang => or_congr_right' fun hhash => ?_
    rw [← overlap_eq_card, ← verifiedClone_iff]
    exact (and_iff_right_of_imp (hcool x hx y hy hlt hlang hhash)).symm

end Agree

/-! ## 4. A family around one token -/

/-- Twenty occurrences of one token. -/
def oneTokenBag : TokenBag := ⟨[(1, 20)], by decide, by decide, by decide⟩

/-- The `i`th function of the family: its own structure, the common bag. -/
def familySymbol (i : Nat) : SymbolRow where
  id := i + 1
  startByte := i
  language := "rust"
  isTest := false
  qualifiedName := "a.rs::f"
  fingerprint := some ⟨Fin.ofNat _ i, 20, .packed oneTokenBag, by
    intro bag h
    cases h
    rfl⟩

def familyFile (n : Nat) : FileRow := ⟨"a.rs", 0, false, (List.range n).map familySymbol⟩

theorem rowsOf_familyFile (n : Nat) :
    rowsOf [familyFile n] = (List.range n).map fun i => (familyFile n, familySymbol i) := by
  simp [rowsOf, familyFile, Function.comp_def]

/-- One file with `n` functions of the family. -/
def familyIndex (n : Nat) : Index where
  files := [familyFile n]
  paths := nodup_singleton _
  ids := by
    rw [rowsOf_familyFile, map_map]
    refine nodup_range.map fun i j h => ?_
    simpa [familySymbol] using h
  positive := by
    rw [rowsOf_familyFile]
    intro row hrow
    obtain ⟨i, -, rfl⟩ := mem_map.mp hrow
    exact Int.natCast_succ_pos i

def familyItem (i : Nat) : Item := ⟨⟨"a.rs", i, 0⟩, "rust", Fin.ofNat _ i, oneTokenBag⟩

section Family

variable {n : Nat}

theorem eligible_family : (familyIndex n).eligible anyFile =
    (List.range n).map fun i => (familyFile n, familySymbol i) := by
  rw [Index.eligible, Index.rows, show (familyIndex n).files = [familyFile n] from rfl,
    rowsOf_familyFile, filter_eq_self]
  intro row hrow
  obtain ⟨i, -, rfl⟩ := mem_map.mp hrow
  rfl

theorem placed_family : (familyIndex n).Placed := by
  intro row hrow row' hrow' hkey
  rw [Index.rows, show (familyIndex n).files = [familyFile n] from rfl, rowsOf_familyFile] at hrow hrow'
  obtain ⟨i, -, rfl⟩ := mem_map.mp hrow
  obtain ⟨j, -, rfl⟩ := mem_map.mp hrow'
  have hij : i = j := congrArg (fun k => (ofLex k).2) hkey
  rw [hij]

theorem hasItem_family {item : Item} (h : (familyIndex n).HasItem item) :
    ∃ i < n, item = familyItem i := by
  obtain ⟨row, hrow, hitem⟩ := h
  rw [eligible_family] at hrow
  obtain ⟨i, hi, rfl⟩ := mem_map.mp hrow
  exact ⟨i, mem_range.mp hi, (Option.some.inj hitem).symm⟩

theorem hashFixesLength_family : (familyIndex n).HashFixesLength := by
  intro a b ha hb _
  obtain ⟨i, -, rfl⟩ := hasItem_family ha
  obtain ⟨j, -, rfl⟩ := hasItem_family hb
  rfl

/-- No frequencies are known. -/
def noDf : TokenHash → Option Int := fun _ => none

theorem mem_familyBags : bag ∈ loadBags (familyIndex n) anyFile noDf ↔
    ∃ i < n, (familyItem i).toBag (i + 1) noDf = bag := by
  simp only [mem_loadBags, Index.ItemAt, eligible_family]
  constructor
  · rintro ⟨-, item, ⟨row, hrow, rfl, hitem⟩, rfl⟩
    obtain ⟨i, hi, rfl⟩ := mem_map.mp hrow
    cases hitem
    exact ⟨i, mem_range.mp hi, rfl⟩
  · rintro ⟨i, hi, rfl⟩
    exact ⟨_, _, ⟨_, mem_map.mpr ⟨i, mem_range.mpr hi, rfl⟩, rfl, rfl⟩, rfl⟩

theorem length_familyBags : (loadBags (familyIndex n) anyFile noDf).length = n := by
  rw [loadBags, (Register.sorted_perm _ _).length_eq, eligible_family, filterMap_map]
  have : (List.range n).filterMap ((fun row : Row => (rowItem row).map (·.toBag row.2.id noDf)) ∘
      fun i => (familyFile n, familySymbol i)) =
      (List.range n).map fun i => (familyItem i).toBag (i + 1) noDf := by
    rw [← filterMap_eq_map]
    rfl
  rw [this, length_map, length_range]

theorem subBlock_family (i : Nat) :
    subBlockTokens ((familyItem i).toBag (i + 1) noDf) clonePrecomputeTheta = [1] := by
  show subBlockTokens ((familyItem 0).toBag 0 noDf) clonePrecomputeTheta = [1]
  decide +kernel

theorem holders_family (token : TokenHash) (h : token = 1) :
    (holders (loadBags (familyIndex n) anyFile noDf) clonePrecomputeTheta token).length = n := by
  rw [holders, filter_eq_self.mpr, length_familyBags]
  intro bag hbag
  obtain ⟨i, -, rfl⟩ := mem_familyBags.mp hbag
  rw [subBlock_family, h]
  rfl

theorem clonePair_family (i j : Nat) : ClonePair clonePrecomputeTheta
    ((familyItem i).toBag (i + 1) noDf) ((familyItem j).toBag (j + 1) noDf) := by
  refine clonePair_toBag.mpr ⟨rfl, .inr ?_⟩
  show threshold clonePrecomputeTheta (max 20 20) ≤ (familyItem 0).shared (familyItem 0)
  rw [← overlap_toBag _ _ 0 0 noDf noDf]
  decide +kernel

end Family

/-- A database with the family indexed and no graph yet. -/
def familyDatabase (n : Nat) : Database := ⟨familyIndex n, [], none⟩

/-- A pass with time to finish. -/
def unhurried : CloneEdgeOptions := ⟨fun _ => false, 512, false, []⟩

/-- The family's database after one such pass, and what that pass reports. -/
def familyGraph (n : Nat) : Database × CloneEdgeStatus :=
  reconcileCloneEdgesPass (fun _ => 0) unhurried (familyDatabase n)

theorem passes_familyGraph (n : Nat) :
    Passes (fun _ => 0) (familyDatabase n) (familyGraph n).1 .complete :=
  passes_of_not_late _ rfl rfl

theorem noneToResume_family (n : Nat) (revision : Revision) :
    (familyDatabase n).NoneToResume revision :=
  show Option.filter _ none = none from rfl

theorem published_familyGraph (n : Nat) : (familyGraph n).1.index = familyIndex n ∧
    ∃ gen, Published 0 (familyGraph n).1 gen :=
  published_of_passes placed_family.itemsPlaced hashFixesLength_family (noneToResume_family n _)
    (passes_familyGraph n)

/-- Two functions are no family to speak of: the graph returns what the live read returns. -/
theorem precomputed_pairs_are_live_pairs_for_two :
    (familyGraph 2).2 = .complete ∧
      pairsForQuery (familyGraph 2).1 (loadBags (familyGraph 2).1.index anyFile noDf)
          clonePrecomputeTheta =
        candidatePairsFromBags (loadBags (familyGraph 2).1.index anyFile noDf)
          clonePrecomputeTheta := by
  refine ⟨status_of_not_late rfl rfl, (precomputed_pairs_are_live_pairs_iff placed_family
    hashFixesLength_family (noneToResume_family 2 _) (passes_familyGraph 2) (le_refl _)
    precomputeTheta_le_one).mpr ?_⟩
  intro x hx y hy _ _ _ hv
  rw [(published_familyGraph 2).1] at hx hy ⊢
  obtain ⟨i, -, rfl⟩ := mem_familyBags.mp hx
  obtain ⟨j, -, rfl⟩ := mem_familyBags.mp hy
  refine ⟨1, ?_, ?_, (holders_family 1 rfl).le.trans (by decide)⟩
  · exact (subBlock_family i).symm ▸ mem_cons_self
  · exact (subBlock_family j).symm ▸ mem_cons_self

/-- **257 functions that share one bag.** The graph built from them joins the first two; the live
read, which passes over the one token they share, does not. -/
theorem hot_token_family_is_lost_live :
    (familyGraph 257).2 = .complete ∧
      toLex (1, 2) ∈ pairsForQuery (familyGraph 257).1
        (loadBags (familyGraph 257).1.index anyFile noDf) clonePrecomputeTheta ∧
      toLex (1, 2) ∉ candidatePairsFromBags (loadBags (familyGraph 257).1.index anyFile noDf)
        clonePrecomputeTheta := by
  obtain ⟨hindex, gen, hpub⟩ := published_familyGraph 257
  refine ⟨status_of_not_late rfl rfl, ?_, ?_⟩
  · rw [pairsForQuery_eq hpub (le_refl _), mem_ofList, mem_precomputedPairs hpub
      (hindex ▸ placed_family) (hindex ▸ hashFixesLength_family) (le_refl _) precomputeTheta_le_one,
      hindex]
    exact ⟨_, mem_familyBags.mpr ⟨0, by decide, rfl⟩, _, mem_familyBags.mpr ⟨1, by decide, rfl⟩,
      by decide, rfl, clonePair_family 0 1⟩
  · rw [mem_candidatePairsFromBags nodup_loadBags, hindex]
    rintro ⟨x, hx, y, hy, hlt, -, -, hcase⟩
    obtain ⟨i, hi, rfl⟩ := mem_familyBags.mp hx
    obtain ⟨j, hj, rfl⟩ := mem_familyBags.mp hy
    rcases hcase with hhash | ⟨⟨w, hw, -, hcap⟩, -⟩
    · -- the structures of two functions differ
      have hval : i % 2 ^ 256 = j % 2 ^ 256 := congrArg Fin.val hhash
      have hlt' : (i : Int) + 1 < j + 1 := hlt
      omega
    · have hw' : w ∈ [1] := (subBlock_family i) ▸ hw
      rw [holders_family w (mem_singleton.mp hw')] at hcap
      exact absurd hcap (by decide)

end RagRat.Clones
