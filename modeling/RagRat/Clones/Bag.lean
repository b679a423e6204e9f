/-
  File:      RagRat/Clones/Bag.lean
  Subject:   Token bags of fingerprinted functions: the overlap of two bags, the size-pruned verify
             and the sub-block of a bag, with what they say about the multisets the bags stand for.

  * `overlapTokens`, `verifiedClone` -- the two-pointer merge and the gate on it, a product of `f64`s
    under any `Rounding`;
  * `overlap_eq_card`, `verifiedClone_iff` -- the merge counts the multiset intersection, and the
    size prune takes nothing away;
  * **`exists_shared_subBlockToken`** -- two bags that pass the verify share a sub-block token,
    whatever the document frequencies that rank the tokens.
-/
import Mathlib.Algebra.Order.Floor.Semiring
import Mathlib.Data.Rat.Floor
import Mathlib.Data.List.Count
import Mathlib.Data.Prod.Lex
import RagRat.Lib.PrefixFilter
import RagRat.Lib.Register
import RagRat.Common

namespace RagRat.Clones

open List
open Lib.PrefixFilter (preceding)

variable {tokens ts ss : List TokenPosting} {h w : TokenHash} {bag a b : SymbolBag} {θ : ℚ}
  {df : TokenHash → Int}

/-! ## 1. Bags -/

/-- A row id of the `symbols` table. -/
abbrev SymbolId := Int

/-- The FNV-1a hash of a token, stored as a signed integer. -/
abbrev TokenHash := Int

/-- The SHA-256 of a normalized token stream. -/
abbrev StructHash := Bytes32

/-- A token of a bag, with the document frequency it is ranked by. -/
structure TokenPosting where
  tokenHash : TokenHash
  freq : Nat
  coalescedDf : Int
deriving DecidableEq

/-- A symbol's fingerprint: tokens in hash order, each occurring, and the number of occurrences. -/
structure SymbolBag where
  symbolId : SymbolId
  language : String
  structHash : StructHash
  tokenLen : Nat
  tokens : List TokenPosting
  ascending : tokens.Pairwise fun s t => s.tokenHash < t.tokenHash
  positive : ∀ t ∈ tokens, 0 < t.freq
  total : (tokens.map (·.freq)).sum = tokenLen
  nonempty : 0 < tokenLen
deriving DecidableEq

/-- The token hashes a list of postings stands for, each as often as it occurs. -/
def occurrences (tokens : List TokenPosting) : List TokenHash :=
  tokens.flatMap fun t => List.replicate t.freq t.tokenHash

/-- The multiset a bag stands for. -/
def SymbolBag.contents (bag : SymbolBag) : Multiset TokenHash := (occurrences bag.tokens : Multiset _)

theorem mem_occurrences (hpos : ∀ t ∈ tokens, 0 < t.freq) :
    h ∈ occurrences tokens ↔ ∃ t ∈ tokens, t.tokenHash = h := by
  simp only [occurrences, mem_flatMap, mem_replicate]
  constructor
  · rintro ⟨t, ht, -, rfl⟩
    exact ⟨t, ht, rfl⟩
  · rintro ⟨t, ht, rfl⟩
    exact ⟨t, ht, (hpos t ht).ne', rfl⟩

@[simp] theorem SymbolBag.card_contents (bag : SymbolBag) : bag.contents.card = bag.tokenLen := by
  simp [contents, occurrences, length_flatMap, bag.total]

theorem SymbolBag.mem_contents : h ∈ bag.contents ↔ ∃ t ∈ bag.tokens, t.tokenHash = h := by
  rw [contents, Multiset.mem_coe, mem_occurrences bag.positive]

/-- The same bag under other document frequencies. -/
def SymbolBag.reweigh (df : TokenHash → Int) (bag : SymbolBag) : SymbolBag where
  symbolId := bag.symbolId
  language := bag.language
  structHash := bag.structHash
  tokenLen := bag.tokenLen
  tokens := bag.tokens.map fun t => { t with coalescedDf := df t.tokenHash }
  ascending := pairwise_map.mpr bag.ascending
  positive t ht := by
    obtain ⟨u, hu, rfl⟩ := mem_map.mp ht
    exact bag.positive u hu
  total := by
    rw [map_map]
    exact bag.total
  nonempty := bag.nonempty

@[simp] theorem SymbolBag.contents_reweigh (df : TokenHash → Int) (bag : SymbolBag) :
    (bag.reweigh df).contents = bag.contents := by
  simp only [contents, occurrences, reweigh, flatMap_map]

/-! ## 2. Overlap -/

/-- The two-pointer merge: the lower hash moves on, equal hashes count the smaller frequency. -/
def overlapTokens : List TokenPosting → List TokenPosting → Nat
  | [], _ => 0
  | s :: ss, ts => against s (overlapTokens ss) ts
where
  against (s : TokenPosting) (rest : List TokenPosting → Nat) : List TokenPosting → Nat
    | [] => 0
    | t :: ts =>
      if s.tokenHash < t.tokenHash then rest (t :: ts)
      else if t.tokenHash < s.tokenHash then against s rest ts
      else min s.freq t.freq + rest ts

/-- The overlap of two bags. -/
def overlap (a b : SymbolBag) : Nat := overlapTokens a.tokens b.tokens

section Intersection

variable {α : Type} [DecidableEq α] {m n : Multiset α} {x : α}

theorem replicate_add_inter_of_notMem (f : Nat) (h : x ∉ n) :
    (Multiset.replicate f x + m) ∩ n = m ∩ n := by
  ext y
  by_cases hy : x = y
  · subst hy
    simp [Multiset.count_eq_zero_of_notMem h]
  · simp [Multiset.count_replicate, hy]

theorem replicate_add_inter_replicate_add (f g : Nat) (hm : x ∉ m) (hn : x ∉ n) :
    (Multiset.replicate f x + m) ∩ (Multiset.replicate g x + n) =
      Multiset.replicate (min f g) x + m ∩ n := by
  ext y
  by_cases hy : x = y
  · subst hy
    simp [Multiset.count_eq_zero_of_notMem hm, Multiset.count_eq_zero_of_notMem hn]
  · simp [Multiset.count_replicate, hy]

end Intersection

theorem occurrences_cons (t : TokenPosting) (ts : List TokenPosting) :
    (occurrences (t :: ts) : Multiset TokenHash) =
      Multiset.replicate t.freq t.tokenHash + (occurrences ts : Multiset TokenHash) := by
  rw [occurrences, flatMap_cons, ← Multiset.coe_add, Multiset.coe_replicate]
  rfl

theorem notMem_occurrences (hlt : ∀ t ∈ ts, h < t.tokenHash) :
    h ∉ (occurrences ts : Multiset TokenHash) := by
  rw [Multiset.mem_coe]
  simp only [occurrences, mem_flatMap, mem_replicate, not_exists, not_and]
  rintro t ht - rfl
  exact lt_irrefl _ (hlt t ht)

theorem overlapTokens_eq_card (hs : ss.Pairwise fun s t => s.tokenHash < t.tokenHash)
    (ht : ts.Pairwise fun s t => s.tokenHash < t.tokenHash) :
    overlapTokens ss ts = ((occurrences ss : Multiset TokenHash) ∩ occurrences ts).card := by
  induction ss generalizing ts with
  | nil => simp [overlapTokens, occurrences]
  | cons s ss ih =>
    obtain ⟨hsl, hss⟩ := pairwise_cons.mp hs
    rw [overlapTokens]
    -- the inner pointer runs along `ts` until it meets the hash of `s`
    induction ts with
    | nil => simp [overlapTokens.against, occurrences]
    | cons t ts iht =>
      obtain ⟨htl, hts⟩ := pairwise_cons.mp ht
      unfold overlapTokens.against
      split
      next hlt =>
        have hnot : s.tokenHash ∉ (occurrences (t :: ts) : Multiset TokenHash) := by
          refine notMem_occurrences fun u hu => ?_
          rcases mem_cons.mp hu with rfl | hu
          · exact hlt
          · exact hlt.trans (htl u hu)
        rw [ih hss ht, occurrences_cons s, replicate_add_inter_of_notMem _ hnot]
      next hlt =>
        split
        next hgt =>
          have hnot : t.tokenHash ∉ (occurrences (s :: ss) : Multiset TokenHash) := by
            refine notMem_occurrences fun u hu => ?_
            rcases mem_cons.mp hu with rfl | hu
            · exact hgt
            · exact hgt.trans (hsl u hu)
          rw [iht hts, occurrences_cons t, Multiset.inter_comm _ (_ + _),
            replicate_add_inter_of_notMem _ hnot, Multiset.inter_comm]
        next hgt =>
          have heq : s.tokenHash = t.tokenHash := le_antisymm (not_lt.mp hgt) (not_lt.mp hlt)
          have hnots := notMem_occurrences hsl
          rw [heq] at hnots
          rw [ih hss hts, occurrences_cons s, occurrences_cons t, heq,
            replicate_add_inter_replicate_add _ _ hnots (notMem_occurrences htl), Multiset.card_add,
            Multiset.card_replicate]

theorem overlap_eq_card (a b : SymbolBag) : overlap a b = (a.contents ∩ b.contents).card :=
  overlapTokens_eq_card a.ascending b.ascending

theorem overlap_comm (a b : SymbolBag) : overlap a b = overlap b a := by
  rw [overlap_eq_card, overlap_eq_card, Multiset.inter_comm]

theorem overlap_le_left (a b : SymbolBag) : overlap a b ≤ a.tokenLen := by
  rw [overlap_eq_card, ← a.card_contents]
  exact Multiset.card_le_card Multiset.inter_le_left

theorem overlap_le_right (a b : SymbolBag) : overlap a b ≤ b.tokenLen := by
  rw [overlap_comm]
  exact overlap_le_left b a

/-! ## 3. The verify -/

/-- The rounding of a product of `f64`s. It keeps the order, takes nothing positive to zero, and leaves a
    length as it is (a function has fewer than 2^53 tokens). -/
class Rounding where
  toF64 : ℚ → ℚ
  toF64_mono : Monotone toF64
  toF64_natCast : ∀ n : Nat, toF64 n = n
  toF64_pos : ∀ x, 0 < x → 0 < toF64 x

open Rounding

/-- Products that need no rounding, as in what is evaluated here. -/
instance (priority := low) exactProducts : Rounding where
  toF64 := id
  toF64_mono := monotone_id
  toF64_natCast _ := rfl
  toF64_pos _ h := h

/-- `ceil(theta * len)`, the occurrences a match on `len` occurrences has to share. -/
def threshold [Rounding] (θ : ℚ) (len : Nat) : Nat := ⌈toF64 (θ * len)⌉₊

section Threshold

variable [Rounding] {θ' : ℚ} {m n : Nat}

theorem threshold_mono (h0 : 0 ≤ θ) (hmn : m ≤ n) : threshold θ m ≤ threshold θ n :=
  Nat.ceil_mono (toF64_mono (mul_le_mul_of_nonneg_left (by exact_mod_cast hmn) h0))

theorem threshold_mono_left (h : θ ≤ θ') : threshold θ n ≤ threshold θ' n :=
  Nat.ceil_mono (toF64_mono (mul_le_mul_of_nonneg_right h (Nat.cast_nonneg n)))

theorem threshold_le (h1 : θ ≤ 1) : threshold θ n ≤ n :=
  Nat.ceil_le.mpr ((toF64_mono (mul_le_of_le_one_left (Nat.cast_nonneg n) h1)).trans_eq (toF64_natCast n))

theorem threshold_pos (h0 : 0 < θ) (hn : 0 < n) : 0 < threshold θ n :=
  Nat.ceil_pos.mpr (toF64_pos _ (mul_pos h0 (by exact_mod_cast hn)))

end Threshold

/-- Size prune, then the exact overlap against the longer of the two bags. -/
def verifiedClone [Rounding] (a b : SymbolBag) (θ : ℚ) : Bool :=
  let minLen := min a.tokenLen b.tokenLen
  let maxLen := max a.tokenLen b.tokenLen
  let needed := threshold θ maxLen
  if minLen < needed then false else needed ≤ overlap a b

theorem verifiedClone_iff [Rounding] :
    verifiedClone a b θ = true ↔ threshold θ (max a.tokenLen b.tokenLen) ≤ overlap a b := by
  have hle : overlap a b ≤ min a.tokenLen b.tokenLen :=
    le_min (overlap_le_left a b) (overlap_le_right a b)
  simp only [verifiedClone]
  split
  next hprune =>
    simp only [Bool.false_eq_true, false_iff, not_le]
    exact lt_of_le_of_lt hle hprune
  next => exact decide_eq_true_iff

/-! ## 4. The sub-block -/

/-- Rarer tokens first, the hash breaking ties. -/
def TokenPosting.rank (t : TokenPosting) : Int ×ₗ Int := toLex (t.coalescedDf, t.tokenHash)

/-- `token_len - ceil(theta * token_len) + 1`, not below zero. -/
def subBlockLen [Rounding] (tokenLen : Nat) (θ : ℚ) : Nat := tokenLen + 1 - threshold θ tokenLen

/-- Walk the ranked tokens, keeping each one that begins inside the first `p` occurrences. -/
def takeBlock (p : Nat) : Nat → List TokenPosting → List TokenHash
  | _, [] => []
  | before, t :: ts => if before < p then t.tokenHash :: takeBlock p (before + t.freq) ts else []

/-- The tokens whose occurrences reach into the first `subBlockLen` occurrences in rank order. -/
def subBlockTokens [Rounding] (bag : SymbolBag) (θ : ℚ) : List TokenHash :=
  let p := subBlockLen bag.tokenLen θ
  if p = 0 then [] else takeBlock p 0 (Lib.Register.sorted TokenPosting.rank bag.tokens)

theorem takeBlock_sublist (p before : Nat) (tokens : List TokenPosting) :
    (takeBlock p before tokens).Sublist (tokens.map (·.tokenHash)) := by
  induction tokens generalizing before with
  | nil => exact List.Sublist.refl _
  | cons t ts ih =>
    unfold takeBlock
    split
    · exact (ih _).cons_cons _
    · exact nil_sublist _

theorem subBlockTokens_nodup [Rounding] (bag : SymbolBag) (θ : ℚ) : (subBlockTokens bag θ).Nodup := by
  have hdistinct : (bag.tokens.map (·.tokenHash)).Nodup :=
    pairwise_map.mpr (bag.ascending.imp ne_of_lt)
  have hperm := (Lib.Register.sorted_perm TokenPosting.rank bag.tokens).map (·.tokenHash)
  simp only [subBlockTokens]
  split
  · exact nodup_nil
  · exact (hperm.nodup_iff.mpr hdistinct).sublist (takeBlock_sublist _ _ _)

/-- The rank of a token hash under given document frequencies. -/
def rankBy (df : TokenHash → Int) (h : TokenHash) : Int ×ₗ Int := toLex (df h, h)

/-- The postings carry the frequencies `df` gives. -/
def Ranked (df : TokenHash → Int) (tokens : List TokenPosting) : Prop :=
  ∀ t ∈ tokens, t.coalescedDf = df t.tokenHash

theorem SymbolBag.ranked_reweigh (df : TokenHash → Int) (bag : SymbolBag) :
    Ranked df (bag.reweigh df).tokens := by
  intro t ht
  obtain ⟨u, -, rfl⟩ := mem_map.mp ht
  rfl

theorem Ranked.rank_eq (h : Ranked df tokens) {t : TokenPosting} (ht : t ∈ tokens) :
    t.rank = rankBy df t.tokenHash := by
  rw [TokenPosting.rank, rankBy, h t ht]

theorem mem_takeBlock (hdf : Ranked df tokens) (hord : tokens.Pairwise fun s t => s.rank < t.rank)
    (p before : Nat) (w : TokenHash) :
    w ∈ takeBlock p before tokens ↔ (∃ t ∈ tokens, t.tokenHash = w) ∧
      before + preceding (rankBy df) (occurrences tokens) w < p := by
  induction tokens generalizing before with
  | nil => simp [takeBlock]
  | cons t ts ih =>
    obtain ⟨hlt, hts⟩ := pairwise_cons.mp hord
    have hdf' : Ranked df ts := (forall_mem_cons.mp hdf).2
    have hlater : ∀ u ∈ ts, rankBy df t.tokenHash < rankBy df u.tokenHash := by
      intro u hu
      rw [← hdf.rank_eq mem_cons_self, ← hdf'.rank_eq hu]
      exact hlt u hu
    have hsum : ∀ w, preceding (rankBy df) (occurrences (t :: ts)) w =
        (if rankBy df t.tokenHash < rankBy df w then t.freq else 0) +
          preceding (rankBy df) (occurrences ts) w := by
      intro w
      rw [preceding, occurrences_cons, Multiset.filter_add, Multiset.card_add]
      congr 1
      split
      next h => rw [Multiset.filter_eq_self.mpr (fun a ha => Multiset.eq_of_mem_replicate ha ▸ h),
        Multiset.card_replicate]
      next h =>
        rw [Multiset.filter_eq_nil.mpr (fun a ha => Multiset.eq_of_mem_replicate ha ▸ h),
          Multiset.card_zero]
    -- nothing ranks before the head, and the head ranks before everything else
    have hfront : preceding (rankBy df) (occurrences (t :: ts)) t.tokenHash = 0 := by
      rw [hsum, if_neg (lt_irrefl _), Nat.zero_add, preceding, Multiset.card_eq_zero,
        Multiset.filter_eq_nil]
      intro a ha
      rw [Multiset.mem_coe, occurrences, mem_flatMap] at ha
      obtain ⟨u, hu, ha⟩ := ha
      rw [eq_of_mem_replicate ha]
      exact (hlater u hu).asymm
    unfold takeBlock
    split
    next hin =>
      rw [mem_cons, ih hdf' hts]
      constructor
      · rintro (rfl | ⟨⟨u, hu, rfl⟩, hlt⟩)
        · exact ⟨⟨t, mem_cons_self, rfl⟩, by rw [hfront]; exact hin⟩
        · refine ⟨⟨u, mem_cons_of_mem t hu, rfl⟩, ?_⟩
          rw [hsum, if_pos (hlater u hu), ← Nat.add_assoc]
          exact hlt
      · rintro ⟨⟨u, hu, rfl⟩, hlt⟩
        rcases mem_cons.mp hu with rfl | hu
        · exact .inl rfl
        · rw [hsum, if_pos (hlater u hu), ← Nat.add_assoc] at hlt
          exact .inr ⟨⟨u, hu, rfl⟩, hlt⟩
    next hout =>
      simp only [not_mem_nil, false_iff, not_and]
      rintro - hlt
      exact hout (lt_of_le_of_lt (Nat.le_add_right _ _) hlt)

/-- **A token is in the sub-block when fewer than `subBlockLen` occurrences rank before it.** -/
theorem mem_subBlockTokens [Rounding] (hdf : Ranked df bag.tokens) : w ∈ subBlockTokens bag θ ↔
      w ∈ bag.contents ∧ preceding (rankBy df) bag.contents w < subBlockLen bag.tokenLen θ := by
  have hperm := Lib.Register.sorted_perm TokenPosting.rank bag.tokens
  have hocc : (occurrences (Lib.Register.sorted TokenPosting.rank bag.tokens) : Multiset TokenHash) =
      bag.contents :=
    Multiset.coe_eq_coe.mpr (hperm.flatMap_right _)
  -- no two tokens of a bag are ranked alike
  have hwalk := mem_takeBlock (fun t ht => hdf t (hperm.mem_iff.mp ht))
    (Lib.Register.sorted_strict _ (bag.ascending.imp fun hlt h =>
      hlt.ne (congrArg (fun r => (ofLex r).2) h))) (subBlockLen bag.tokenLen θ) 0 w
  rw [hocc, Nat.zero_add] at hwalk
  have hmem : (∃ t ∈ Lib.Register.sorted TokenPosting.rank bag.tokens, t.tokenHash = w) ↔
      w ∈ bag.contents := by
    rw [SymbolBag.mem_contents]
    exact exists_congr fun t => and_congr_left' hperm.mem_iff
  rw [hmem] at hwalk
  simp only [subBlockTokens]
  split
  next hp => simp [hp]
  next => exact hwalk

/-- **Two bags that pass the verify share a sub-block token.** Each leaves out of its sub-block no
more occurrences than the threshold on its own length, which is at most what they share. -/
theorem exists_shared_subBlockToken [Rounding] (ha : Ranked df a.tokens) (hb : Ranked df b.tokens) (h0 : 0 < θ)
    (h1 : θ ≤ 1) (hclone : threshold θ (max a.tokenLen b.tokenLen) ≤ overlap a b) :
    ∃ w, w ∈ subBlockTokens a θ ∧ w ∈ subBlockTokens b θ := by
  have hka := threshold_mono h0.le (le_max_left a.tokenLen b.tokenLen)
  have hkb := threshold_mono h0.le (le_max_right a.tokenLen b.tokenLen)
  have hpos := threshold_pos h0 (lt_max_of_lt_left a.nonempty : 0 < max a.tokenLen b.tokenLen)
  have hla := threshold_le (n := a.tokenLen) h1
  have hlb := threshold_le (n := b.tokenLen) h1
  rw [overlap_eq_card] at hclone
  obtain ⟨w, hwa, hwb, hpa, hpb⟩ := Lib.PrefixFilter.exists_shared_in_front (rankBy df)
    (p := subBlockLen a.tokenLen θ) (q := subBlockLen b.tokenLen θ) hpos hclone
    (by rw [a.card_contents, subBlockLen]; omega) (by rw [b.card_contents, subBlockLen]; omega)
  exact ⟨w, (mem_subBlockTokens ha).mpr ⟨hwa, hpa⟩, (mem_subBlockTokens hb).mpr ⟨hwb, hpb⟩⟩

end RagRat.Clones
