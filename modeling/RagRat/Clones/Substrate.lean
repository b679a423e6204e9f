/-
  File:      RagRat/Clones/Substrate.lean
  Subject:   The candidate read: exact partners by structural hash, candidates through an inverted
             index over sub-block tokens, the verify, and the form of it that can be cancelled.

  * `candidatePairsFromBags`, `candidatePairsFromBagsCancellable` -- the read and its twin;
  * `mem_candidatePairsFromBags` -- what the read returns;
  * `Flag.Latched` -- a cancellation flag once read as set is read as set from then on;
  * **`sub_block_filter_loses_no_clone`** -- with no over-shared token the read returns every clone
    pair and nothing else, and so does its twin unless it is cancelled.
-/
import Mathlib.Data.String.Basic
import RagRat.Lib.Keyed
import RagRat.Lib.OrderedSet
import RagRat.Lib.Buckets
import RagRat.Clones.Bag

namespace RagRat.Clones

open List
open Lib
open Buckets OrderedSet

variable {bags bags' : List SymbolBag} {df df' : TokenHash → Int} {θ : ℚ} {p : Pair}
  {x y : SymbolBag} {a b id : SymbolId} {pairs : List Pair}

/-! ## 1. Pairs and buckets -/

/-- A token in more sub-blocks than this emits no candidate pairs. -/
def hotTokenPostingsCap : Nat := 256

/-- Two symbol ids, the smaller first; pairs sort by the smaller id. -/
abbrev Pair := Int ×ₗ Int

/-- Two symbols, the lower id first. -/
def pair (a b : SymbolId) : Pair := toLex (min a b, max a b)

section

variable [Rounding] (bags : List SymbolBag)

/-- The bag of a symbol id. -/
def bagOf (id : SymbolId) : Option SymbolBag :=
  bags.find? fun bag => bag.symbolId = id

/-- `(struct_hash, language) -> ids`. -/
def structHashBuckets : List ((StructHash ×ₗ String) × List SymbolId) :=
  group (bags.map fun bag => (toLex (bag.structHash, bag.language), bag.symbolId))

/-- `token_hash -> ids`, over sub-block tokens only. -/
def subBlockIndex (θ : ℚ) : List (TokenHash × List SymbolId) :=
  group (bags.flatMap fun bag => (subBlockTokens bag θ).map fun token => (token, bag.symbolId))

/-- The bags whose sub-block holds a token. -/
def holders (θ : ℚ) (token : TokenHash) : List SymbolBag :=
  bags.filter fun bag => token ∈ subBlockTokens bag θ

end

/-! ## 2. The candidate read -/

/-- The loops of the cancellable read that look at the flag, in program order. -/
inductive Phase where
  | exactBag | exactRow | exactPair | indexBag | emitRow | emitted
  | sortChunk | chunksSorted | mergeRun | verify | verified | mergePair
deriving DecidableEq

/-- What the cancellation flag is read as, by loop and place in the loop. -/
abbrev Flag := Phase → List Nat → Bool

/-- The flag nobody sets. -/
def Flag.clear : Flag := fun _ _ => false

/-- Every pair of a bucket, the flag looked at once a row and once in 1024 pairs of it. -/
def bucketPairsCancellable (row : Nat → Bool) (cell : Nat → Nat → Bool) (i : Nat) :
    List SymbolId → Option (List Pair)
  | [] => some []
  | a :: rest =>
    if row i then none
    else if (List.range rest.length).any fun offset => offset % 1024 = 0 && cell i offset then none
    else (bucketPairsCancellable row cell (i + 1) rest).map (rest.map (pair a) ++ ·)

/-- The pairs of the `n`th bucket into the set. -/
def addBucketCancellable (flag : Flag) (pairs : List Pair) (ids : List SymbolId) (n : Nat) :
    Option (List Pair) :=
  (bucketPairsCancellable (fun i => flag .exactRow [n, i])
    (fun i offset => flag .exactPair [n, i, offset]) 0 ids).map (insertAll pairs)

/-- Exact partners: all pairs of every bucket, or nothing once the flag was seen set. -/
def addStructHashPairsCancellable (flag : Flag) (bags : List SymbolBag) (pairs : List Pair) :
    Option (List Pair) :=
  if (List.range bags.length).any fun i => flag .exactBag [i] then none
  else (structHashBuckets bags).zipIdx.foldlM
    (fun pairs bucket => addBucketCancellable flag pairs bucket.1.2 bucket.2) pairs

section

variable [Rounding] (bags : List SymbolBag)

/-- The exact partners added. -/
def addStructHashPairs (pairs : List Pair) : List Pair :=
  (addStructHashPairsCancellable Flag.clear bags pairs).getD pairs

/-- The same-language pairs of a posting list; a set flag ends the list early. -/
def emitPairs (row : Nat → Bool) (i : Nat) : List SymbolId → List Pair
  | [] => []
  | a :: rest =>
    if row i then []
    else ((rest.filter fun b => (bagOf bags a).map (·.language) = (bagOf bags b).map (·.language)).map
      (pair a)) ++ emitPairs row (i + 1) rest

/-- The posting lists short enough to discriminate. -/
def coolPostings (θ : ℚ) : List (TokenHash × List SymbolId) :=
  (subBlockIndex bags θ).filter fun e => e.2.length ≤ hotTokenPostingsCap

/-- The pairs that share a sub-block token few bags hold. -/
def subBlockCandidatePairs (θ : ℚ) : List Pair :=
  sortDedup ((coolPostings bags θ).flatMap fun e => emitPairs bags (fun _ => false) 0 e.2)

end

/-- Sort in pieces, each left as it is once the flag was seen set, then merge the pieces. -/
def sortDedupPairsCancellable (flag : Flag) (pairs : List Pair) : Option (List Pair) :=
  let chunks := (chunks 65535 pairs).zipIdx.map fun chunk =>
    if flag .sortChunk [chunk.2] then chunk.1 else chunk.1.insertionSort (· ≤ ·)
  if flag .chunksSorted [] then none
  else mergeRuns (fun visits => flag .mergeRun [visits]) 0 (heapOf 0 chunks) []

/-- The same, unless the flag is read as set. -/
def subBlockCandidatePairsCancellable [Rounding] (flag : Flag) (bags : List SymbolBag) (θ : ℚ) :
    Option (List Pair) :=
  if (List.range bags.length).any fun i => flag .indexBag [i] then none
  else
    let candidate := (coolPostings bags θ).zipIdx.flatMap fun e =>
      emitPairs bags (fun i => flag .emitRow [e.2, i]) 0 e.1.2
    if flag .emitted [] then none else sortDedupPairsCancellable flag candidate

/-- The verify on a candidate pair of ids. -/
def verifiedPair [Rounding] (bags : List SymbolBag) (θ : ℚ) (p : Pair) : Bool :=
  match bagOf bags (ofLex p).1, bagOf bags (ofLex p).2 with
  | some a, some b => verifiedClone a b θ
  | _, _ => false

/-- **The candidate read.** -/
def candidatePairsFromBags [Rounding] (bags : List SymbolBag) (θ : ℚ) : List Pair :=
  let pairs := addStructHashPairs bags []
  let verified := (subBlockCandidatePairs bags θ).filter (verifiedPair bags θ)
  insertAll pairs verified

/-- The read that can be cancelled. -/
def candidatePairsFromBagsCancellable [Rounding] (flag : Flag) (bags : List SymbolBag) (θ : ℚ) :
    Option (List Pair) := do
  let pairs ← addStructHashPairsCancellable flag bags []
  let candidate ← subBlockCandidatePairsCancellable flag bags θ
  let verified := (candidate.zipIdx.filter fun e => !flag .verify [e.2] && verifiedPair bags θ e.1).map
    (·.1)
  if flag .verified [] then none
  else mergePolled (fun visits => flag .mergePair [visits]) 0 pairs verified []

/-! ## 3. What the read returns -/

/-- The pairs of a list that `keep` lets through. -/
def upperPairs (keep : SymbolId → SymbolId → Prop) [DecidableRel keep] : List SymbolId → List Pair
  | [] => []
  | a :: rest => (rest.filter fun b => keep a b).map (pair a) ++ upperPairs keep rest

/-- Two bags of `bags`, the smaller id first, that `R` relates. -/
def Related (bags : List SymbolBag) (R : SymbolBag → SymbolBag → Prop) (p : Pair) : Prop :=
  ∃ x ∈ bags, ∃ y ∈ bags, x.symbolId < y.symbolId ∧ p = toLex (x.symbolId, y.symbolId) ∧ R x y

section Read

variable {flag : Flag} {keep : SymbolId → SymbolId → Prop} {row : Nat → Bool}

theorem related_congr {R S : SymbolBag → SymbolBag → Prop} (h : ∀ x ∈ bags, ∀ y ∈ bags,
    x.symbolId < y.symbolId → (R x y ↔ S x y)) : Related bags R p ↔ Related bags S p :=
  exists_congr fun x => and_congr_right fun hx => exists_congr fun y => and_congr_right fun hy =>
    and_congr_right fun hlt => and_congr_right fun _ => h x hx y hy hlt

theorem pair_comm (a b : SymbolId) : pair a b = pair b a := by
  rw [pair, pair, min_comm, max_comm]

theorem pair_of_lt (h : a < b) : pair a b = toLex (a, b) := by
  rw [pair, min_eq_left h.le, max_eq_right h.le]

theorem mem_upperPairs [DecidableRel keep]
    (hsymm : ∀ a b, keep a b → keep b a) {ids : List SymbolId} (hnd : ids.Nodup) :
    p ∈ upperPairs keep ids ↔ ∃ a ∈ ids, ∃ b ∈ ids, a < b ∧ keep a b ∧ p = toLex (a, b) := by
  induction ids with
  | nil => simp [upperPairs]
  | cons c rest ih =>
    obtain ⟨hc, hrest⟩ := nodup_cons.mp hnd
    simp only [upperPairs, mem_append, mem_map, mem_filter, decide_eq_true_eq, ih hrest]
    constructor
    · rintro (⟨b, ⟨hb, hk⟩, rfl⟩ | ⟨a, ha, b, hb, h⟩)
      · -- the two ids differ, so one of the two orders is the ascending one
        rcases lt_or_gt_of_ne (show c ≠ b from fun h => hc (h ▸ hb)) with hlt | hlt
        · exact ⟨c, mem_cons_self, b, mem_cons_of_mem c hb, hlt, hk, pair_of_lt hlt⟩
        · exact ⟨b, mem_cons_of_mem c hb, c, mem_cons_self, hlt, hsymm c b hk,
            (pair_comm c b).trans (pair_of_lt hlt)⟩
      · exact ⟨a, mem_cons_of_mem c ha, b, mem_cons_of_mem c hb, h⟩
    · rintro ⟨a, ha, b, hb, hlt, hk, rfl⟩
      rcases mem_cons.mp ha with rfl | ha'
      · rcases mem_cons.mp hb with rfl | hb'
        · exact absurd hlt (lt_irrefl _)
        · exact .inl ⟨b, ⟨hb', hk⟩, pair_of_lt hlt⟩
      · rcases mem_cons.mp hb with rfl | hb'
        · exact .inl ⟨a, ⟨ha', hsymm a b hk⟩, (pair_comm b a).trans (pair_of_lt hlt)⟩
        · exact .inr ⟨a, ha', b, hb', hlt, hk, rfl⟩

theorem bagOf_eq_some_iff (hid : (bags.map (·.symbolId)).Nodup) :
    bagOf bags id = some x ↔ x ∈ bags ∧ x.symbolId = id := by
  have := Keyed.find?_key_eq_some_iff (p := fun _ => true) hid (k := id) (a := x)
  simpa [bagOf] using this

theorem bagOf_symbolId (hid : (bags.map (·.symbolId)).Nodup) (hx : x ∈ bags) :
    bagOf bags x.symbolId = some x :=
  (bagOf_eq_some_iff hid).mpr ⟨hx, rfl⟩

/-! ### Exact partners -/

/-- Some read of the flag found it set. -/
def Flag.Seen (flag : Flag) : Prop := ∃ phase place, flag phase place = true

theorem Flag.not_seen_clear : ¬ Flag.clear.Seen := by
  rintro ⟨phase, place, h⟩
  cases h

theorem bucketPairsCancellable_cases {cell : Nat → Nat → Bool} {P : Prop}
    (hrow : ∀ i, row i = true → P) (hcell : ∀ i offset, cell i offset = true → P) (i : Nat)
    (ids : List SymbolId) : bucketPairsCancellable row cell i ids = none ∧ P ∨
      bucketPairsCancellable row cell i ids = some (upperPairs (fun _ _ => True) ids) := by
  induction ids generalizing i with
  | nil => exact .inr rfl
  | cons a rest ih =>
    unfold bucketPairsCancellable
    split
    next h => exact .inl ⟨rfl, hrow i h⟩
    next =>
      split
      next h =>
        obtain ⟨offset, -, hread⟩ := any_eq_true.mp h
        exact .inl ⟨rfl, hcell i offset (Bool.and_eq_true_iff.mp hread).2⟩
      next =>
        rcases ih (i + 1) with ⟨h, hP⟩ | h
        · exact .inl ⟨by rw [h]; rfl, hP⟩
        · exact .inr (by rw [h]; simp [upperPairs])

/-- The exact partners, one bucket after the other. -/
def exactPairs (bags : List SymbolBag) (pairs : List Pair) : List Pair :=
  insertAll pairs
    ((structHashBuckets bags).flatMap fun bucket => upperPairs (fun _ _ => True) bucket.2)

theorem addBucketCancellable_cases (flag : Flag) (pairs : List Pair) (ids : List SymbolId) (n : Nat) :
    addBucketCancellable flag pairs ids n = none ∧ flag.Seen ∨
      addBucketCancellable flag pairs ids n =
        some (insertAll pairs (upperPairs (fun _ _ => True) ids)) := by
  unfold addBucketCancellable
  rcases bucketPairsCancellable_cases (P := flag.Seen) (fun i h => ⟨.exactRow, [n, i], h⟩)
    (fun i offset h => ⟨.exactPair, [n, i, offset], h⟩) 0 ids with ⟨h, hseen⟩ | h
  · exact .inl ⟨by rw [h]; rfl, hseen⟩
  · exact .inr (by rw [h]; rfl)

theorem addStructHashPairsCancellable_cases (flag : Flag) (bags : List SymbolBag) (pairs : List Pair) :
    addStructHashPairsCancellable flag bags pairs = none ∧ flag.Seen ∨
      addStructHashPairsCancellable flag bags pairs = some (exactPairs bags pairs) := by
  unfold addStructHashPairsCancellable
  split
  next h =>
    obtain ⟨i, -, hread⟩ := any_eq_true.mp h
    exact .inl ⟨rfl, .exactBag, [i], hread⟩
  next =>
    unfold exactPairs
    -- the positions of the buckets only say where the flag is read
    generalize structHashBuckets bags = buckets, 0 = n
    induction buckets generalizing pairs n with
    | nil => exact .inr rfl
    | cons bucket buckets ih =>
      rw [zipIdx_cons, foldlM_cons, flatMap_cons, insertAll, foldl_append]
      rcases addBucketCancellable_cases flag pairs bucket.2 n with ⟨h, hseen⟩ | h
      · exact .inl ⟨by rw [h]; rfl, hseen⟩
      · rw [h]
        exact ih _ (n + 1)

theorem addStructHashPairs_eq (bags : List SymbolBag) (pairs : List Pair) :
    addStructHashPairs bags pairs = exactPairs bags pairs := by
  rcases addStructHashPairsCancellable_cases Flag.clear bags pairs with ⟨-, h⟩ | h
  · exact absurd h Flag.not_seen_clear
  · rw [addStructHashPairs, h]
    rfl

theorem ascends_exactPairs (bags : List SymbolBag) (h : Ascends pairs) :
    Ascends (exactPairs bags pairs) :=
  h.insertAll _

theorem mem_upperPairs_filter (hid : (bags.map (·.symbolId)).Nodup) {q : SymbolBag → Bool}
    [DecidableRel keep] (hsymm : ∀ a b, keep a b → keep b a) :
    p ∈ upperPairs keep ((bags.filter q).map (·.symbolId)) ↔
      Related bags (fun x y => q x = true ∧ q y = true ∧ keep x.symbolId y.symbolId) p := by
  have hnd : ((bags.filter q).map (·.symbolId)).Nodup :=
    hid.sublist (filter_sublist.map _)
  rw [mem_upperPairs hsymm hnd]
  constructor
  · rintro ⟨a, ha, b, hb, hlt, hk, rfl⟩
    obtain ⟨x, hx, rfl⟩ := mem_map.mp ha
    obtain ⟨y, hy, rfl⟩ := mem_map.mp hb
    rw [mem_filter] at hx hy
    exact ⟨x, hx.1, y, hy.1, hlt, rfl, hx.2, hy.2, hk⟩
  · rintro ⟨x, hx, y, hy, hlt, rfl, hqx, hqy, hk⟩
    exact ⟨x.symbolId, mem_map_of_mem (mem_filter.mpr ⟨hx, hqx⟩), y.symbolId,
      mem_map_of_mem (mem_filter.mpr ⟨hy, hqy⟩), hlt, hk, rfl⟩

theorem valuesAt_structHashBuckets (bags : List SymbolBag) (k : StructHash ×ₗ String) :
    valuesAt (bags.map fun bag => (toLex (bag.structHash, bag.language), bag.symbolId)) k =
      (bags.filter fun bag => toLex (bag.structHash, bag.language) = k).map (·.symbolId) := by
  rw [valuesAt, filter_map, map_map]
  rfl

theorem mem_exactPairs (hid : (bags.map (·.symbolId)).Nodup) :
    p ∈ exactPairs bags pairs ↔ p ∈ pairs ∨
      Related bags (fun x y => x.language = y.language ∧ x.structHash = y.structHash) p := by
  rw [exactPairs, mem_insertAll, mem_flatMap]
  refine or_congr_right ?_
  constructor
  · rintro ⟨⟨k, ids⟩, hbucket, hp⟩
    obtain ⟨-, rfl⟩ := mem_group.mp hbucket
    rw [valuesAt_structHashBuckets, mem_upperPairs_filter hid fun _ _ h => h] at hp
    obtain ⟨x, hx, y, hy, hlt, rfl, hkx, hky, -⟩ := hp
    have hkey := (of_decide_eq_true hkx).trans (of_decide_eq_true hky).symm
    rw [toLex_inj, Prod.mk.injEq] at hkey
    exact ⟨x, hx, y, hy, hlt, rfl, hkey.2, hkey.1⟩
  · rintro ⟨x, hx, y, hy, hlt, rfl, hlang, hhash⟩
    refine ⟨(toLex (x.structHash, x.language), _), mem_group.mpr ⟨?_, rfl⟩, ?_⟩
    · rw [valuesAt_structHashBuckets]
      exact ne_nil_of_mem (mem_map_of_mem (mem_filter.mpr ⟨hx, by simp⟩))
    · rw [valuesAt_structHashBuckets, mem_upperPairs_filter hid fun _ _ h => h]
      exact ⟨x, hx, y, hy, hlt, rfl, by simp, by simp [hlang, hhash], trivial⟩

/-! ### Candidates -/

/-- Two symbols of one language, as the read looks their languages up. -/
def SameLanguage (bags : List SymbolBag) (a b : SymbolId) : Prop :=
  (bagOf bags a).map (·.language) = (bagOf bags b).map (·.language)

instance : DecidableRel (SameLanguage bags) := fun _ _ => inferInstanceAs (Decidable (_ = _))

theorem sameLanguage_iff (hid : (bags.map (·.symbolId)).Nodup) (hx : x ∈ bags) (hy : y ∈ bags) :
    SameLanguage bags x.symbolId y.symbolId ↔ x.language = y.language := by
  simp [SameLanguage, bagOf_symbolId hid hx, bagOf_symbolId hid hy]

theorem emitPairs_eq (h : ∀ i, row i = false) (i : Nat) (ids : List SymbolId) :
    emitPairs bags row i ids = upperPairs (SameLanguage bags) ids := by
  induction ids generalizing i with
  | nil => rfl
  | cons a rest ih =>
    rw [emitPairs, h, if_neg Bool.false_ne_true, ih]
    rfl

theorem valuesAt_subBlockIndex [Rounding] (bags : List SymbolBag) (θ : ℚ) (token : TokenHash) :
    valuesAt (bags.flatMap fun bag =>
      (subBlockTokens bag θ).map fun token => (token, bag.symbolId)) token =
        (holders bags θ token).map (·.symbolId) := by
  induction bags with
  | nil => rfl
  | cons bag bags ih =>
    have hone : ((subBlockTokens bag θ).map fun t => (t, bag.symbolId)).filter
        (fun e => e.1 = token) = if token ∈ subBlockTokens bag θ then [(token, bag.symbolId)] else [] := by
      rw [filter_map]
      show ((subBlockTokens bag θ).filter (· = token)).map _ = _
      rw [filter_eq, map_replicate]
      split
      next hmem => rw [count_eq_one_of_mem (subBlockTokens_nodup bag θ) hmem, replicate_one]
      next hmem => rw [count_eq_zero_of_not_mem hmem, replicate_zero]
    rw [valuesAt, flatMap_cons, filter_append, map_append, hone, holders, filter_cons]
    simp only [decide_eq_true_eq]
    split
    · exact congrArg (bag.symbolId :: ·) ih
    · exact ih

/-- A sub-block token of both bags that few enough bags hold. -/
def SharesCoolToken [Rounding] (bags : List SymbolBag) (θ : ℚ) (x y : SymbolBag) : Prop :=
  ∃ w, w ∈ subBlockTokens x θ ∧ w ∈ subBlockTokens y θ ∧
    (holders bags θ w).length ≤ hotTokenPostingsCap

theorem mem_postingPairs [Rounding] (hid : (bags.map (·.symbolId)).Nodup) (θ : ℚ) (q : List SymbolId → Prop) :
    (∃ e ∈ subBlockIndex bags θ, q e.2 ∧ p ∈ upperPairs (SameLanguage bags) e.2) ↔
      Related bags (fun x y => x.language = y.language ∧ ∃ w, w ∈ subBlockTokens x θ ∧
        w ∈ subBlockTokens y θ ∧ q ((holders bags θ w).map (·.symbolId))) p := by
  have hsymm : ∀ a b, SameLanguage bags a b → SameLanguage bags b a := fun _ _ h => Eq.symm h
  constructor
  · rintro ⟨⟨token, ids⟩, hgroup, hq, hp⟩
    obtain ⟨-, rfl⟩ := mem_group.mp hgroup
    rw [valuesAt_subBlockIndex] at hq hp
    rw [holders, mem_upperPairs_filter hid hsymm] at hp
    obtain ⟨x, hx, y, hy, hlt, rfl, hwx, hwy, hlang⟩ := hp
    exact ⟨x, hx, y, hy, hlt, rfl, (sameLanguage_iff hid hx hy).mp hlang, token,
      of_decide_eq_true hwx, of_decide_eq_true hwy, hq⟩
  · rintro ⟨x, hx, y, hy, hlt, rfl, hlang, w, hwx, hwy, hq⟩
    refine ⟨(w, (holders bags θ w).map (·.symbolId)), ?_, hq, ?_⟩
    · refine mem_group.mpr ⟨?_, valuesAt_subBlockIndex bags θ w⟩
      exact ne_nil_of_mem (mem_map_of_mem (mem_filter.mpr ⟨hx, decide_eq_true hwx⟩))
    · rw [holders, mem_upperPairs_filter hid hsymm]
      exact ⟨x, hx, y, hy, hlt, rfl, decide_eq_true hwx, decide_eq_true hwy,
        (sameLanguage_iff hid hx hy).mpr hlang⟩

theorem mem_coolPairs [Rounding] (hid : (bags.map (·.symbolId)).Nodup) :
    (∃ e ∈ coolPostings bags θ, p ∈ upperPairs (SameLanguage bags) e.2) ↔
      Related bags (fun x y => x.language = y.language ∧ SharesCoolToken bags θ x y) p := by
  have h := mem_postingPairs hid θ (fun ids => ids.length ≤ hotTokenPostingsCap) (p := p)
  simpa only [coolPostings, mem_filter, decide_eq_true_eq, and_assoc, length_map,
    SharesCoolToken] using h

/-- The candidates before they are sorted. -/
def coolPairs [Rounding] (bags : List SymbolBag) (θ : ℚ) : List Pair :=
  (coolPostings bags θ).flatMap fun e => upperPairs (SameLanguage bags) e.2

theorem subBlockCandidatePairs_eq [Rounding] (bags : List SymbolBag) (θ : ℚ) :
    subBlockCandidatePairs bags θ = ofList (coolPairs bags θ) := by
  rw [subBlockCandidatePairs, sortDedup_eq_ofList, coolPairs]
  simp only [emitPairs_eq (fun _ => rfl)]

theorem verifiedPair_iff [Rounding] (hid : (bags.map (·.symbolId)).Nodup) (hx : x ∈ bags) (hy : y ∈ bags) :
    verifiedPair bags θ (toLex (x.symbolId, y.symbolId)) = verifiedClone x y θ := by
  simp [verifiedPair, bagOf_symbolId hid hx, bagOf_symbolId hid hy]

theorem ascends_candidatePairsFromBags [Rounding] (bags : List SymbolBag) (θ : ℚ) :
    Ascends (candidatePairsFromBags bags θ) := by
  rw [candidatePairsFromBags, addStructHashPairs_eq]
  exact (ascends_exactPairs bags List.Pairwise.nil).insertAll _

/-- **What the read returns**: exact partners, and verified pairs that share a cool token. -/
theorem mem_candidatePairsFromBags [Rounding] (hid : (bags.map (·.symbolId)).Nodup) :
    p ∈ candidatePairsFromBags bags θ ↔ Related bags (fun x y => x.language = y.language ∧
      (x.structHash = y.structHash ∨ SharesCoolToken bags θ x y ∧ verifiedClone x y θ = true)) p := by
  rw [candidatePairsFromBags, addStructHashPairs_eq, mem_insertAll, mem_exactPairs hid,
    mem_filter, subBlockCandidatePairs_eq, mem_ofList, coolPairs, mem_flatMap,
    mem_coolPairs hid]
  simp only [not_mem_nil, false_or]
  constructor
  · rintro (⟨x, hx, y, hy, hlt, rfl, hlang, hhash⟩ | ⟨⟨x, hx, y, hy, hlt, rfl, hlang, hshare⟩, hv⟩)
    · exact ⟨x, hx, y, hy, hlt, rfl, hlang, .inl hhash⟩
    · rw [verifiedPair_iff hid hx hy] at hv
      exact ⟨x, hx, y, hy, hlt, rfl, hlang, .inr ⟨hshare, hv⟩⟩
  · rintro ⟨x, hx, y, hy, hlt, rfl, hlang, hhash | ⟨hshare, hv⟩⟩
    · exact .inl ⟨x, hx, y, hy, hlt, rfl, hlang, hhash⟩
    · exact .inr ⟨⟨x, hx, y, hy, hlt, rfl, hlang, hshare⟩, by rw [verifiedPair_iff hid hx hy, hv]⟩

/-! ### The cancellable twin -/

/-- **A flag once read as set is read as set by every later loop.** The parallel loops leave out
    work when they see it set, and rely on the read after them to notice. -/
def Flag.Latched (flag : Flag) : Prop :=
  ∀ p q place place', p.ctorIdx < q.ctorIdx → flag p place = true → flag q place' = true

theorem Flag.Latched.unset (h : flag.Latched) {p q : Phase} {place' : List Nat}
    (hpq : p.ctorIdx < q.ctorIdx) (hq : ¬ flag q place' = true) (place : List Nat) :
    flag p place = false :=
  Bool.eq_false_iff.mpr fun hp => hq (h p q place place' hpq hp)

theorem sortDedupPairsCancellable_cases (h : flag.Latched) (pairs : List Pair) :
    sortDedupPairsCancellable flag pairs = none ∧ flag.Seen ∨
      sortDedupPairsCancellable flag pairs = some (ofList pairs) := by
  simp only [sortDedupPairsCancellable]
  split
  next hset => exact .inl ⟨rfl, .chunksSorted, [], hset⟩
  next hunset =>
    have hclear := fun place => h.unset (p := .sortChunk) (by decide) hunset place
    simp only [hclear, Bool.false_eq_true, if_false]
    set chunks := (chunks 65535 pairs).zipIdx.map fun chunk =>
      chunk.1.insertionSort (· ≤ ·) with hchunks
    have hsorted : ∀ l ∈ chunks, l.Pairwise (· ≤ ·) := by
      intro l hl
      obtain ⟨chunk, -, rfl⟩ := mem_map.mp hl
      exact pairwise_insertionSort _ _
    have hflat : ∀ p, p ∈ chunks.flatten ↔ p ∈ pairs := by
      intro p
      rw [hchunks, ← Function.comp_def (f := fun l : List Pair => l.insertionSort (· ≤ ·)),
        ← map_map, zipIdx_map_fst]
      conv_rhs => rw [← flatten_chunks 65535 pairs]
      simp only [mem_flatten, mem_map, exists_exists_and_eq_and, (perm_insertionSort _ _).mem_iff]
    refine (mergeRuns_eq _ 0 _ [] (heaped_heapOf 0 hsorted)).imp ?_ fun e =>
      e.trans (congrArg some (ofList_congr fun p => ?_))
    · rintro ⟨hnone, n, hread⟩
      exact ⟨hnone, .mergeRun, [n], hread⟩
    · rw [nil_append, mem_heapOf_elements, hflat]

theorem subBlockCandidatePairsCancellable_cases [Rounding] (h : flag.Latched) (bags : List SymbolBag) (θ : ℚ) :
    subBlockCandidatePairsCancellable flag bags θ = none ∧ flag.Seen ∨
      subBlockCandidatePairsCancellable flag bags θ = some (subBlockCandidatePairs bags θ) := by
  simp only [subBlockCandidatePairsCancellable]
  split
  next hset =>
    obtain ⟨i, -, hread⟩ := any_eq_true.mp hset
    exact .inl ⟨rfl, .indexBag, [i], hread⟩
  next =>
    split
    next hset => exact .inl ⟨rfl, .emitted, [], hset⟩
    next hunset =>
      have hclear := fun place => h.unset (p := .emitRow) (by decide) hunset place
      have hemit : ((coolPostings bags θ).zipIdx.flatMap fun e =>
          emitPairs bags (fun i => flag .emitRow [e.2, i]) 0 e.1.2) = coolPairs bags θ := by
        simp only [hclear, emitPairs_eq (fun _ => rfl), coolPairs]
        conv_rhs => rw [← zipIdx_map_fst 0 (coolPostings bags θ), flatMap_map]
      rw [hemit, subBlockCandidatePairs_eq]
      exact sortDedupPairsCancellable_cases h _

theorem candidatePairsFromBagsCancellable_cases [Rounding] (h : flag.Latched) (bags : List SymbolBag) (θ : ℚ) :
    candidatePairsFromBagsCancellable flag bags θ = none ∧ flag.Seen ∨
      candidatePairsFromBagsCancellable flag bags θ = some (candidatePairsFromBags bags θ) := by
  unfold candidatePairsFromBagsCancellable
  rcases addStructHashPairsCancellable_cases flag bags [] with ⟨hexact, hseen⟩ | hexact
  · exact .inl ⟨by rw [hexact]; rfl, hseen⟩
  rcases subBlockCandidatePairsCancellable_cases h bags θ with ⟨hcand, hseen⟩ | hcand
  · exact .inl ⟨by rw [hexact, hcand]; rfl, hseen⟩
  simp only [hexact, hcand, Option.bind_eq_bind, Option.bind_some]
  split
  next hset => exact .inl ⟨rfl, .verified, [], hset⟩
  next hunset =>
    have hclear := fun place => h.unset (p := .verify) (by decide) hunset place
    have hverified : ((subBlockCandidatePairs bags θ).zipIdx.filter fun e =>
        !flag .verify [e.2] && verifiedPair bags θ e.1).map (·.1) =
        (subBlockCandidatePairs bags θ).filter (verifiedPair bags θ) := by
      simp only [hclear, Bool.not_false, Bool.true_and]
      conv_rhs => rw [← zipIdx_map_fst 0 (subBlockCandidatePairs bags θ), filter_map]
      rfl
    have hasc : Ascends (subBlockCandidatePairs bags θ) := by
      rw [subBlockCandidatePairs_eq]
      exact ascends_ofList _
    rw [hverified]
    refine (mergePolled_eq _ 0 _ _ [] ⟨ascends_exactPairs bags List.Pairwise.nil,
      hasc.sublist filter_sublist, List.Pairwise.nil, nofun⟩).imp ?_ fun e =>
        e.trans (congrArg some ?_)
    · rintro ⟨hnone, n, hread⟩
      exact ⟨hnone, .mergePair, [n], hread⟩
    · refine ((ascends_candidatePairsFromBags bags θ).eq_ofList fun p => ?_).symm
      rw [candidatePairsFromBags, addStructHashPairs_eq, mem_insertAll, nil_append, mem_append]

end Read

/-! ## 4. The read finds every clone -/

/-- **What a clone pair is**: one language, and one structure or enough of the longer bag shared. -/
def ClonePair [Rounding] (θ : ℚ) (x y : SymbolBag) : Prop :=
  x.language = y.language ∧ (x.structHash = y.structHash ∨
    threshold θ (max x.tokenLen y.tokenLen) ≤ (x.contents ∩ y.contents).card)

/-- No sub-block token is held by more bags than the read looks at. -/
def NoHotToken [Rounding] (bags : List SymbolBag) (θ : ℚ) : Prop :=
  ∀ token, (holders bags θ token).length ≤ hotTokenPostingsCap

theorem mem_candidatePairsFromBags_iff_clones [Rounding] (hid : (bags.map (·.symbolId)).Nodup)
    (hdf : ∀ bag ∈ bags, Ranked df bag.tokens) (h0 : 0 < θ) (h1 : θ ≤ 1) (hcool : NoHotToken bags θ) :
    p ∈ candidatePairsFromBags bags θ ↔ Related bags (ClonePair θ) p := by
  rw [mem_candidatePairsFromBags hid]
  refine related_congr fun x hx y hy _ => and_congr_right fun _ => or_congr_right ?_
  rw [verifiedClone_iff, overlap_eq_card]
  refine and_iff_right_of_imp fun hv => ?_
  rw [← overlap_eq_card] at hv
  obtain ⟨w, hwx, hwy⟩ := exists_shared_subBlockToken (hdf x hx) (hdf y hy) h0 h1 hv
  exact ⟨w, hwx, hwy, hcool w⟩

theorem related_clones_reweigh [Rounding] (hperm : bags'.Perm (bags.map (·.reweigh df'))) :
    Related bags' (ClonePair θ) p ↔ Related bags (ClonePair θ) p := by
  have hclones : ∀ x y : SymbolBag, ClonePair θ (x.reweigh df') (y.reweigh df') ↔ ClonePair θ x y := by
    intro x y
    simp only [ClonePair, SymbolBag.contents_reweigh]
    rfl
  constructor
  · rintro ⟨x', hx', y', hy', hlt, rfl, hc⟩
    obtain ⟨x, hx, rfl⟩ := mem_map.mp (hperm.mem_iff.mp hx')
    obtain ⟨y, hy, rfl⟩ := mem_map.mp (hperm.mem_iff.mp hy')
    exact ⟨x, hx, y, hy, hlt, rfl, (hclones x y).mp hc⟩
  · rintro ⟨x, hx, y, hy, hlt, rfl, hc⟩
    exact ⟨x.reweigh df', hperm.mem_iff.mpr (mem_map_of_mem hx), y.reweigh df',
      hperm.mem_iff.mpr (mem_map_of_mem hy), hlt, rfl, (hclones x y).mpr hc⟩

/-- **Sub-block filtering loses no clone.** The read returns the clone pairs in ascending order; bags
in another order under other document frequencies give the same list; and the twin returns that
list too, or nothing if it saw its flag set. -/
theorem sub_block_filter_loses_no_clone [Rounding] (hid : (bags.map (·.symbolId)).Nodup)
    (hdf : ∀ bag ∈ bags, Ranked df bag.tokens) (h0 : 0 < θ) (h1 : θ ≤ 1) (hcool : NoHotToken bags θ) :
    (candidatePairsFromBags bags θ).Pairwise (· < ·) ∧
      (∀ p, p ∈ candidatePairsFromBags bags θ ↔ Related bags (ClonePair θ) p) ∧
      (∀ (bags' : List SymbolBag) (df' : TokenHash → Int), bags'.Perm (bags.map (·.reweigh df')) →
        NoHotToken bags' θ → candidatePairsFromBags bags' θ = candidatePairsFromBags bags θ) ∧
      (∀ flag : Flag, flag.Latched →
        candidatePairsFromBagsCancellable flag bags θ = none ∧ flag.Seen ∨
          candidatePairsFromBagsCancellable flag bags θ = some (candidatePairsFromBags bags θ)) := by
  have hmem := fun p => mem_candidatePairsFromBags_iff_clones hid hdf h0 h1 hcool (p := p)
  refine ⟨ascends_candidatePairsFromBags bags θ, hmem, fun bags' df' hperm hcool' => ?_,
    fun flag hlatched => candidatePairsFromBagsCancellable_cases hlatched bags θ⟩
  have hid' : (bags'.map (·.symbolId)).Nodup := by
    refine ((hperm.map (·.symbolId)).nodup_iff).mpr ?_
    rw [map_map]
    exact hid
  have hdf' : ∀ bag ∈ bags', Ranked df' bag.tokens := by
    intro bag hbag
    obtain ⟨b, -, rfl⟩ := mem_map.mp (hperm.mem_iff.mp hbag)
    exact b.ranked_reweigh df'
  refine (ascends_candidatePairsFromBags bags' θ).ext (ascends_candidatePairsFromBags bags θ)
    fun p => ?_
  rw [mem_candidatePairsFromBags_iff_clones hid' hdf' h0 h1 hcool', hmem,
    related_clones_reweigh hperm]

/-- Two functions of four tokens that share three of them. -/
def sampleBags : List SymbolBag :=
  [⟨1, "rust", 10, 4, [⟨5, 2, 1⟩, ⟨6, 1, 9⟩, ⟨7, 1, 2⟩], by decide, by decide, by decide, by decide⟩,
    ⟨2, "rust", 11, 4, [⟨5, 2, 1⟩, ⟨6, 1, 9⟩, ⟨8, 1, 2⟩], by decide, by decide, by decide, by decide⟩]

theorem sub_block_filter_finds_the_sample_pair :
    NoHotToken sampleBags (7 / 10) ∧ toLex (1, 2) ∈ candidatePairsFromBags sampleBags (7 / 10) := by
  have hcool : NoHotToken sampleBags (7 / 10) := fun token =>
    (length_filter_le _ _).trans (by decide)
  have hdf : ∀ bag ∈ sampleBags,
      Ranked (fun h => if h = 5 then 1 else if h = 6 then 9 else 2) bag.tokens := by
    unfold Ranked
    decide
  refine ⟨hcool, ((sub_block_filter_loses_no_clone (by decide) hdf (by norm_num) (by norm_num)
    hcool).2.1 _).mpr ?_⟩
  refine ⟨_, mem_cons_self, _, mem_cons_of_mem _ mem_cons_self, by decide, rfl, rfl, .inr ?_⟩
  rw [← overlap_eq_card]
  decide +kernel

end RagRat.Clones
