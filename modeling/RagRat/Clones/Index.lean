/-
  File:      RagRat/Clones/Index.lean
  Subject:   The index the clone graph is computed from: files, their symbols and the stored
             fingerprints, the load of the bags and the content anchors of symbols.

  * `TokenBag`, `FingerprintRow` -- the stored fingerprint of a normalized token stream;
  * `Item` -- an eligible fingerprinted symbol, known by its content anchor and not by its row id;
  * `loadBags`, `anchorOf` -- the bags of the eligible symbols, and where each symbol stands;
  * `mem_loadBags` -- the loaded bags are the items of the index, under the given frequencies.
-/
import Mathlib.Algebra.Order.BigOperators.Group.List
import RagRat.Clones.Substrate

namespace RagRat.Clones

open List
open Lib

variable {keep keep' : FileRow → Bool} {i j item : Item} {row : Row} {index : Index}
  {bag : SymbolBag} {a b : SymbolId}

/-! ## 1. Fingerprints -/

/-- A `(token_hash, freq)` multiset in hash order, with something in it. -/
structure TokenBag where
  pairs : List (TokenHash × Nat)
  ascending : pairs.Pairwise fun s t => s.1 < t.1
  positive : ∀ t ∈ pairs, 0 < t.2
  nonempty : pairs ≠ []
deriving DecidableEq

/-- The number of token occurrences. -/
def TokenBag.size (bag : TokenBag) : Nat := (bag.pairs.map (·.2)).sum

theorem TokenBag.size_pos (bag : TokenBag) : 0 < bag.size := by
  obtain ⟨t, ht⟩ := exists_mem_of_ne_nil _ bag.nonempty
  exact (bag.positive t ht).trans_le (le_sum_of_mem (mem_map_of_mem ht))

/-- The `token_bag` column: no bag, bytes that do not decode, or a packed bag. -/
inductive StoredBag where
  | null
  | corrupt
  | packed (bag : TokenBag)
deriving DecidableEq

/-- A bag, if the blob is of a known version. -/
def decodeTokenBag : StoredBag → Option TokenBag
  | .packed bag => some bag
  | _ => none

/-- The fingerprint of a symbol at the current normalizer version. -/
structure FingerprintRow where
  structHash : StructHash
  tokenLen : Nat
  tokenBag : StoredBag
  total : ∀ bag, tokenBag = .packed bag → bag.size = tokenLen
deriving DecidableEq

/-! ## 2. The index -/

/-- `files.sha256`. -/
abbrev FileSha := Bytes32

/-- A symbol of a file. -/
structure SymbolRow where
  id : SymbolId
  startByte : Nat
  language : String
  isTest : Bool
  /-- The qualified name, `path::name`. -/
  qualifiedName : String
  fingerprint : Option FingerprintRow
deriving DecidableEq

/-- A file the scope sees. -/
structure FileRow where
  path : String
  sha256 : FileSha
  generated : Bool
  symbols : List SymbolRow
deriving DecidableEq

/-- A symbol with the file it stands in. -/
abbrev Row := FileRow × SymbolRow

/-- The symbols of some files, each with its file. -/
def rowsOf (files : List FileRow) : List Row := files.flatMap fun file => file.symbols.map (file, ·)

/-- **The index as the active scope sees it**: one row a path, symbols under positive row ids. -/
structure Index where
  files : List FileRow
  paths : (files.map (·.path)).Nodup
  ids : ((rowsOf files).map (·.2.id)).Nodup
  positive : ∀ row ∈ rowsOf files, 0 < row.2.id

/-- The symbols of an index. -/
def Index.rows (index : Index) : List Row := rowsOf index.files

/-- The symbols of the files `keep` lets through, generated files aside. -/
def Index.eligible (index : Index) (keep : FileRow → Bool) : List Row :=
  index.rows.filter fun row => !row.1.generated && keep row.1

/-- Every file. -/
def anyFile : FileRow → Bool := fun _ => true

/-- Where a symbol stands, in a form a reindex keeps: `(path, start_byte, file_sha)`. -/
structure Anchor where
  path : String
  startByte : Nat
  fileSha : FileSha
deriving DecidableEq

/-- The part of an anchor that orders and identifies it. -/
def Anchor.key (anchor : Anchor) : String ×ₗ Nat := toLex (anchor.path, anchor.startByte)

/-- Where a symbol stands. -/
def rowAnchor (row : Row) : Anchor := ⟨row.1.path, row.2.startByte, row.1.sha256⟩

/-- `symbol_id -> anchor`, over the eligible symbols of the files `keep` lets through. -/
def anchorOf (index : Index) (keep : FileRow → Bool) (id : SymbolId) : Option Anchor :=
  ((index.eligible keep).find? fun row => row.2.id = id).map rowAnchor

/-! ## 3. The bags -/

/-- An eligible fingerprinted symbol, without its row id. -/
structure Item where
  anchor : Anchor
  language : String
  structHash : StructHash
  bag : TokenBag
deriving DecidableEq

/-- Frequency of a token no table row knows: `i64::MAX`, the least selective. -/
def dfFallback : Int := 2 ^ 63 - 1

/-- The bag of an item under the row id it has now and the frequencies of a df table. -/
def Item.toBag (item : Item) (id : SymbolId) (df : TokenHash → Option Int) : SymbolBag where
  symbolId := id
  language := item.language
  structHash := item.structHash
  tokenLen := item.bag.size
  tokens := item.bag.pairs.map fun t => ⟨t.1, t.2, (df t.1).getD dfFallback⟩
  ascending := pairwise_map.mpr item.bag.ascending
  positive t ht := by
    obtain ⟨u, hu, rfl⟩ := mem_map.mp ht
    exact item.bag.positive u hu
  total := by
    rw [map_map]
    rfl
  nonempty := item.bag.size_pos

/-- The item a row holds: a fingerprint with a bag that decodes. -/
def rowItem (row : Row) : Option Item :=
  row.2.fingerprint.bind fun fp =>
    (decodeTokenBag fp.tokenBag).map fun bag => ⟨rowAnchor row, row.2.language, fp.structHash, bag⟩

/-- The bags of the eligible symbols in the files `keep` lets through, where they decode. -/
def loadBags (index : Index) (keep : FileRow → Bool) (df : TokenHash → Option Int) : List SymbolBag :=
  Register.sorted (·.symbolId)
    ((index.eligible keep).filterMap fun row => (rowItem row).map (·.toBag row.2.id df))

theorem Item.ranked_toBag (item : Item) (id : SymbolId) (df : TokenHash → Option Int) :
    Ranked (fun h => (df h).getD dfFallback) (item.toBag id df).tokens := by
  intro t ht
  obtain ⟨u, -, rfl⟩ := mem_map.mp ht
  rfl

/-- What an item holds, whatever its row id and the frequencies. -/
def Item.contents (item : Item) : Multiset TokenHash :=
  (item.bag.pairs.flatMap fun t => List.replicate t.2 t.1 : Multiset TokenHash)

@[simp] theorem Item.contents_toBag (item : Item) (id : SymbolId) (df : TokenHash → Option Int) :
    (item.toBag id df).contents = item.contents := by
  simp only [SymbolBag.contents, occurrences, toBag, contents, flatMap_map]

section Load

variable {df : TokenHash → Option Int}

theorem Index.mem_eligible : row ∈ index.eligible keep ↔
    row ∈ index.rows ∧ row.1.generated = false ∧ keep row.1 = true := by
  simp [eligible]

theorem Index.mem_rows_of_eligible (h : row ∈ index.eligible keep) : row ∈ index.rows :=
  (Index.mem_eligible.mp h).1

/-- The item of the row with this id, among the rows let through. -/
def Index.ItemAt (index : Index) (keep : FileRow → Bool) (id : SymbolId) (item : Item) : Prop :=
  ∃ row ∈ index.eligible keep, row.2.id = id ∧ rowItem row = some item

theorem mem_loadBags : bag ∈ loadBags index keep df ↔
    ∃ id item, index.ItemAt keep id item ∧ item.toBag id df = bag := by
  rw [loadBags, Register.mem_sorted, mem_filterMap]
  constructor
  · rintro ⟨row, hrow, hbag⟩
    obtain ⟨item, hitem, rfl⟩ := Option.map_eq_some_iff.mp hbag
    exact ⟨_, item, ⟨row, hrow, rfl, hitem⟩, rfl⟩
  · rintro ⟨-, item, ⟨row, hrow, rfl, hitem⟩, rfl⟩
    exact ⟨row, hrow, by rw [hitem]; rfl⟩

theorem ranked_loadBags (h : bag ∈ loadBags index keep df) :
    Ranked (fun h => (df h).getD dfFallback) bag.tokens := by
  obtain ⟨id, item, -, rfl⟩ := mem_loadBags.mp h
  exact item.ranked_toBag _ _

theorem Index.row_eq {row' : Row} (h : row ∈ index.eligible keep) (h' : row' ∈ index.eligible keep')
    (hid : row.2.id = row'.2.id) : row = row' :=
  inj_on_of_nodup_map index.ids (index.mem_rows_of_eligible h) (index.mem_rows_of_eligible h') hid

theorem nodup_eligible (index : Index) (keep : FileRow → Bool) :
    ((index.eligible keep).map (·.2.id)).Nodup :=
  index.ids.sublist (filter_sublist.map _)

theorem ascending_loadBags :
    (loadBags index keep df).Pairwise fun x y => x.symbolId < y.symbolId := by
  refine Register.sorted_strict _ (pairwise_map.mp ((nodup_eligible index keep).sublist ?_))
  -- a row passed over leaves a gap in the ids, nothing else
  generalize index.eligible keep = rows
  induction rows with
  | nil => exact List.Sublist.refl _
  | cons row rows ih =>
    cases h : rowItem row with
    | none => simpa [h] using ih.cons row.2.id
    | some item => simpa [h, Item.toBag] using ih

theorem nodup_loadBags : ((loadBags index keep df).map (·.symbolId)).Nodup :=
  pairwise_map.mpr (ascending_loadBags.imp fun h => h.ne)

end Load

/-- The items of an index. -/
def Index.HasItem (index : Index) (item : Item) : Prop :=
  ∃ row ∈ index.eligible anyFile, rowItem row = some item

theorem rowItem_eq_some_iff : rowItem row = some item ↔
    ∃ fp bag, row.2.fingerprint = some fp ∧ fp.tokenBag = .packed bag ∧
      item = ⟨rowAnchor row, row.2.language, fp.structHash, bag⟩ := by
  constructor
  · intro h
    obtain ⟨fp, hfp, h⟩ := Option.bind_eq_some_iff.mp h
    obtain ⟨bag, hbag, rfl⟩ := Option.map_eq_some_iff.mp h
    refine ⟨fp, bag, hfp, ?_, rfl⟩
    cases hb : fp.tokenBag with
    | null => rw [hb] at hbag; cases hbag
    | corrupt => rw [hb] at hbag; cases hbag
    | packed b =>
      rw [hb] at hbag
      rw [Option.some.inj hbag]
  · rintro ⟨fp, bag, hfp, hbag, rfl⟩
    simp [rowItem, hfp, hbag, decodeTokenBag]

theorem anchor_of_rowItem (h : rowItem row = some item) : item.anchor = rowAnchor row := by
  obtain ⟨fp, bag, -, -, rfl⟩ := rowItem_eq_some_iff.mp h
  rfl

theorem Index.ItemAt.anchorOf (h : index.ItemAt keep a i) : anchorOf index keep a = some i.anchor := by
  obtain ⟨row, hrow, rfl, hi⟩ := h
  have hfind := (Keyed.find?_key_eq_some_iff (p := fun _ => true) (nodup_eligible index keep)
    (k := row.2.id) (a := row)).mpr ⟨hrow, rfl, rfl⟩
  simp only [true_and] at hfind
  rw [Clones.anchorOf, hfind, anchor_of_rowItem hi]
  rfl

theorem Index.ItemAt.anyFile (h : index.ItemAt keep a i) : index.ItemAt anyFile a i := by
  obtain ⟨row, hrow, hid, hi⟩ := h
  obtain ⟨hrow, hgen, -⟩ := Index.mem_eligible.mp hrow
  exact ⟨row, Index.mem_eligible.mpr ⟨hrow, hgen, rfl⟩, hid, hi⟩

theorem hasItem_iff_itemAt : index.HasItem i ↔ ∃ a, index.ItemAt anyFile a i :=
  ⟨fun ⟨row, hrow, hi⟩ => ⟨_, row, hrow, rfl, hi⟩, fun ⟨_, row, hrow, _, hi⟩ => ⟨row, hrow, hi⟩⟩

theorem Index.ItemAt.hasItem (h : index.ItemAt keep a i) : index.HasItem i :=
  hasItem_iff_itemAt.mpr ⟨a, h.anyFile⟩

theorem Index.ItemAt.unique (hi : index.ItemAt keep a i) (hj : index.ItemAt keep' a j) : i = j := by
  obtain ⟨row, hrow, rfl, hi⟩ := hi
  obtain ⟨row', hrow', hid, hj⟩ := hj
  obtain rfl := index.row_eq hrow' hrow hid
  exact Option.some.inj (hi.symm.trans hj)

/-- **No two symbols begin at one byte of one file.** -/
def Index.Placed (index : Index) : Prop :=
  ∀ row ∈ index.rows, ∀ row' ∈ index.rows, (rowAnchor row).key = (rowAnchor row').key → row = row'

/-- **No two fingerprinted symbols begin at one byte of one file.** -/
def Index.ItemsPlaced (index : Index) : Prop :=
  ∀ row ∈ index.eligible anyFile, ∀ row' ∈ index.eligible anyFile, (rowItem row).isSome →
    (rowItem row').isSome → (rowAnchor row).key = (rowAnchor row').key → row = row'

theorem Index.Placed.itemsPlaced (h : index.Placed) : index.ItemsPlaced :=
  fun row hrow row' hrow' _ _ hkey =>
    h row (index.mem_rows_of_eligible hrow) row' (index.mem_rows_of_eligible hrow') hkey

theorem Index.ItemsPlaced.itemAt_eq (h : index.ItemsPlaced) (hi : index.ItemAt keep a i)
    (hj : index.ItemAt keep' b j) (hkey : i.anchor.key = j.anchor.key) : a = b ∧ i = j := by
  obtain ⟨row, hrow, rfl, hitem⟩ := hi.anyFile
  obtain ⟨row', hrow', rfl, hitem'⟩ := hj.anyFile
  rw [anchor_of_rowItem hitem, anchor_of_rowItem hitem'] at hkey
  obtain rfl := h row hrow row' hrow' (by rw [hitem]; rfl) (by rw [hitem']; rfl) hkey
  exact ⟨rfl, Option.some.inj (hitem.symm.trans hitem')⟩

theorem Index.ItemsPlaced.hasItem_eq (h : index.ItemsPlaced) (hi : index.HasItem i)
    (hj : index.HasItem j) (hkey : i.anchor.key = j.anchor.key) : i = j := by
  obtain ⟨a, hi⟩ := hasItem_iff_itemAt.mp hi
  obtain ⟨b, hj⟩ := hasItem_iff_itemAt.mp hj
  exact (h.itemAt_eq hi hj hkey).2

end RagRat.Clones
