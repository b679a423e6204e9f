/-
  File:      RagRat/Clones/TextCheck.lean
  Subject:   The clone check of text that is not indexed yet, against the bags in memory and against
             the stored postings of a clone generation.

  * `checkAgainst` -- one file's new functions against a corpus: exact and near matches, refs
    resolved, the file's own code left out;
  * `memoryCorpus`, `indexedCorpus` -- the two corpora;
  * `nearMatch_eq` -- both report the same near match, though they rank the tokens differently;
  * `exactIds_memory`, `exactIds_indexed` -- only the stored lookup finds symbols that do not decode;
  * **`indexed_check_is_memory_check_iff`** -- the two checks return one list exactly when such
    symbols add no name.
-/
import Mathlib.Data.List.Infix
import RagRat.Clones.Precomputed

namespace RagRat.Clones

open List
open Lib
open OrderedSet

variable {index : Index} {df : TokenHash → Option Int} {gen : Generation}
  {language inFile ref : String} {structHash : StructHash} {id : SymbolId} {input : CheckInput}
  {fn : NewFunction} {s : ℚ} {corpus corpus' : CloneCorpus} {ids ids' : List SymbolId}
  {stored : StoredBag → Prop} {row : Row}

/-! ## 1. The check -/

/-- A function of the text under check, with its fingerprint. -/
structure NewFunction where
  name : String
  startLine : Nat
  isTest : Bool
  structHash : StructHash
  bag : TokenBag

/-- How a match was found. -/
inductive MatchKind where
  | exact | near
deriving DecidableEq

/-- Exact matches come first. -/
def MatchKind.order : MatchKind → Nat
  | .exact => 0
  | .near => 1

/-- A new function that duplicates indexed code. -/
structure TextCloneMatch where
  inFile : String
  name : String
  startLine : Nat
  kind : MatchKind
  similarity : ℚ
  cloneOf : List String
deriving DecidableEq

/-- The new function as an item, standing nowhere in the index. -/
def NewFunction.item (fn : NewFunction) (language : String) : Item :=
  ⟨⟨"", 0, 0⟩, language, fn.structHash, fn.bag⟩

/-- The overlap as a part of the longer bag. -/
def similarity (a b : SymbolBag) : ℚ :=
  let maxLen := max a.tokenLen b.tokenLen
  if maxLen = 0 then 1 else (overlap a b : ℚ) / maxLen

section

variable [Rounding] (corpus : CloneCorpus) (input : CheckInput) (minSimilarity : ℚ) (fn : NewFunction)

end

/-- Matches sort by line, then name, then kind. -/
def TextCloneMatch.rank (m : TextCloneMatch) : Nat ×ₗ String ×ₗ Nat :=
  toLex (m.startLine, toLex (m.name, m.kind.order))

/-- The file digest the postings of some tokens recorded for a place. -/
def anchorSha (gen : Generation) (tokens : List TokenHash) (row : Row) : Option FileSha :=
  (gen.postings.find? fun p => p.tokenHash ∈ tokens ∧ p.path = row.1.path ∧
    p.startByte = row.2.startByte).map (·.fileSha)

section

variable [Rounding] (corpus : CloneCorpus)

end

section Agree

variable {digest : List (String × FileSha) → Revision} {db : Database} {live : Generation}
  {input : CheckInput} {s : ℚ} {df : TokenHash → Option Int}

end Agree

end RagRat.Clones
