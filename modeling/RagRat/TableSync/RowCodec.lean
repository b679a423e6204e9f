/-
  File:      RagRat/TableSync/RowCodec.lean
  Subject:   The wire form of a row op (`row_op.rs`): its envelope, its reader and the inverse of the
             row key.

  * `RowOp.encode` / `RowOp.decode` -- cells sorted by column, batches sorted by row key; the reader
    demands that order, caps every count and takes no empty batch.
  * `RowOp.WithinLimits` -- what the reader demands, as a condition on the op;
    `decode_encode` -- it refuses exactly the ops outside it, and reads the others back in
    canonical form.
  * `rowPkValues` -- the key tuple of a bookkeeping key.
-/
import RagRat.Lib.Register
import RagRat.TableSync.RowOp
import RagRat.Wire

namespace RagRat.TableSync

open List
open Lib.Cbor Lib.Register Wire

/-! ## 1. Encoding -/

/-- The row's key. -/
def StatedRow.rowPk (row : StatedRow) : String := rowPkString row.pk

/-- The row's key. -/
def StatedDelete.rowPk (delete : StatedDelete) : String := rowPkString delete.pk

/-- A cell. -/
def encodeCell (cell : Cell) : Bytes := putArray 2 ++ putStr cell.column ++ encodeValue cell.value

/-- A restated row. -/
def encodeStatedRow (row : StatedRow) : Bytes :=
  putArray 4 ++ encodeValues row.pk ++ putBytes row.device.toBytes ++ putUInt row.lamport ++
    encodeCells row.cells

/-- Restated rows by key. -/
def encodeStatedRows (rows : List StatedRow) : Bytes :=
  putList encodeStatedRow (sorted StatedRow.rowPk rows)

/-- A restated delete. -/
def encodeDelete (delete : StatedDelete) : Bytes :=
  putArray 3 ++ encodeValues delete.pk ++ putBytes delete.device.toBytes ++ putUInt delete.lamport

/-- Restated deletes by key. -/
def encodeDeletes (deletes : List StatedDelete) : Bytes :=
  putList encodeDelete (sorted StatedDelete.rowPk deletes)

namespace RowOp

/-- The tag on the wire. -/
def kindTag : RowOp → String
  | upsert .. => "upsert"
  | remove .. => "remove"
  | restate .. => "restate"
  | restateRows .. => "restate-rows"

/-- What follows the tag. -/
def encodePayload : RowOp → Bytes
  | upsert table specVersion pk cells =>
    putArray 4 ++ putStr table ++ putUInt specVersion ++ encodeValues pk ++ encodeCells cells
  | remove table specVersion pk =>
    putArray 3 ++ putStr table ++ putUInt specVersion ++ encodeValues pk
  | restate table specVersion deletes =>
    putArray 3 ++ putStr table ++ putUInt specVersion ++ encodeDeletes deletes
  | restateRows table specVersion rows =>
    putArray 3 ++ putStr table ++ putUInt specVersion ++ encodeStatedRows rows

/-- The tag of a row op. -/
def domain : String := "rag-rat/table-op/1"

/-- **The wire form.** -/
def encode (op : RowOp) : Bytes :=
  putArray 3 ++ putStr domain ++ putStr op.kindTag ++ op.encodePayload

end RowOp

/-! ## 2. Decoding -/

/-- The elements of an array. -/
def maxRowOpElements : Nat := 4096

/-- A count, refused above the cap before anything is sized by it. -/
def cappedLen : Decoder Nat := do
  let len ← expectDefiniteLen
  if maxRowOpElements < len then fail (.message "row-op array length exceeds the protocol cap")
  else pure len

/-- The values of a key. -/
def decodeValues : Decoder (List TypedValue) := do
  let len ← cappedLen
  getItems decodeValue len

/-- A key must lie strictly above the one before it. -/
def requireAfter (prev : Option String) (key text : String) : Decoder Unit :=
  if prev.any (key ≤ ·) then fail (.message text) else pure ()

/-- One cell; its column is judged before its value is read. -/
def decodeCell (prev : Option String) : Decoder Cell := do
  expectArray 2
  let column ← getStr
  requireAfter prev column "row-op cells not sorted or duplicated"
  let value ← decodeValue
  pure { column, value }

/-- Cells with ascending columns. -/
def decodeCells : Decoder (List Cell) := do
  let len ← cappedLen
  getAscending Cell.column decodeCell none len

/-- A fingerprint. -/
def decodeDevice : Decoder DeviceFingerprint := do
  fixedBytes32 (← getBytes) "device"

/-- A restated delete, after the one before. -/
def decodeDelete (prev : Option String) : Decoder StatedDelete := do
  expectArray 3
  let pk ← decodeValues
  requireAfter prev (rowPkString pk) "restate deletes not sorted or duplicated"
  let device ← decodeDevice
  let lamport ← getUInt (2 ^ 64)
  pure { pk, device, lamport }

/-- Restated deletes, at least one. -/
def decodeDeletes : Decoder (List StatedDelete) := do
  let len ← cappedLen
  if len = 0 then fail (.message "a restate batch names no deletes")
  else getAscending StatedDelete.rowPk decodeDelete none len

/-- A restated row, after the one before. -/
def decodeStatedRow (prev : Option String) : Decoder StatedRow := do
  expectArray 4
  let pk ← decodeValues
  requireAfter prev (rowPkString pk) "restate-rows rows not sorted or duplicated"
  let device ← decodeDevice
  let lamport ← getUInt (2 ^ 64)
  let cells ← decodeCells
  pure { pk, device, lamport, cells }

/-- Restated rows, at least one. -/
def decodeStatedRows : Decoder (List StatedRow) := do
  let len ← cappedLen
  if len = 0 then fail (.message "a restate-rows batch names no rows")
  else getAscending StatedRow.rowPk decodeStatedRow none len

/-- An op, or one of a kind this build does not know. -/
inductive DecodedRowOp where
  | known (op : RowOp)
  | unknown (tag : String) (raw : Bytes)
  deriving DecidableEq

namespace RowOp

/-- The payload of a kind; `none` for a kind this binary does not know. -/
def decodePayload (kind : String) : Decoder (Option RowOp) :=
  match kind with
  | "upsert" => do
    expectArray 4
    let table ← getStr
    let specVersion ← getUInt (2 ^ 32)
    let pk ← decodeValues
    let cells ← decodeCells
    pure (some (upsert table specVersion pk cells))
  | "remove" => do
    expectArray 3
    let table ← getStr
    let specVersion ← getUInt (2 ^ 32)
    let pk ← decodeValues
    pure (some (remove table specVersion pk))
  | "restate" => do
    expectArray 3
    let table ← getStr
    let specVersion ← getUInt (2 ^ 32)
    let deletes ← decodeDeletes
    pure (some (restate table specVersion deletes))
  | "restate-rows" => do
    expectArray 3
    let table ← getStr
    let specVersion ← getUInt (2 ^ 32)
    let rows ← decodeStatedRows
    pure (some (restateRows table specVersion rows))
  | _ => pure none

/-- Domain, tag and payload. -/
def readEnvelope : Decoder (String × Option RowOp) := do
  expectArray 3
  expectDomain domain
  let kind ← getStr
  let op ← decodePayload kind
  pure (kind, op)

/-- A known op is spelled as the encoder spells it; an unknown one is canonical CBOR. -/
def decode (bytes : Bytes) : Except Error DecodedRowOp := do
  let ((kind, op), _) ← readEnvelope bytes
  match op with
  | some op =>
    if encode op = bytes then .ok (.known op)
    else .error (.message "non-canonical row-op encoding")
  | none =>
    requireCanonicalCbor bytes
    .ok (.unknown kind bytes)

end RowOp

/-- The key tuple a bookkeeping key was made of. -/
def rowPkValues (rowPk : String) : Except Error (List TypedValue) :=
  match hexDecode rowPk with
  | none => .error (.message "bad hex in row_pk")
  | some bytes => do
    let (values, rest) ← decodeValues bytes
    if rest = [] then .ok values else .error (.message "trailing bytes in row_pk")

/-! ## 3. Canonical form and limits -/

/-- Cells by column. -/
def sortCells (cells : List Cell) : List Cell := sorted Cell.column cells

/-- Cells the reader takes: few enough, and no column twice. -/
def CellsWithin (cells : List Cell) : Prop :=
  cells.length ≤ maxRowOpElements ∧ (cells.map Cell.column).Nodup

instance : DecidablePred CellsWithin := fun _ => inferInstanceAs (Decidable (_ ∧ _))

/-- A batch the reader takes: some items, few enough, and no row twice. -/
def BatchWithin (rowPks : List String) : Prop :=
  rowPks ≠ [] ∧ rowPks.length ≤ maxRowOpElements ∧ rowPks.Nodup

instance : DecidablePred BatchWithin := fun _ => inferInstanceAs (Decidable (_ ∧ _))

/-- With its cells sorted. -/
def StatedRow.canonical (row : StatedRow) : StatedRow := { row with cells := sortCells row.cells }

namespace RowOp

/-- The op with its cells in column order and its batch in row order. -/
def canonical : RowOp → RowOp
  | upsert table v pk cells => upsert table v pk (sortCells cells)
  | remove table v pk => remove table v pk
  | restate table v deletes => restate table v (sorted StatedDelete.rowPk deletes)
  | restateRows table v rows =>
    restateRows table v ((sorted StatedRow.rowPk rows).map StatedRow.canonical)

/-- What the reader demands of an op. -/
def WithinLimits : RowOp → Prop
  | upsert _ _ pk cells => pk.length ≤ maxRowOpElements ∧ CellsWithin cells
  | remove _ _ pk => pk.length ≤ maxRowOpElements
  | restate _ _ deletes =>
    BatchWithin (deletes.map StatedDelete.rowPk) ∧
      ∀ delete ∈ deletes, delete.pk.length ≤ maxRowOpElements
  | restateRows _ _ rows =>
    BatchWithin (rows.map StatedRow.rowPk) ∧
      ∀ row ∈ rows, row.pk.length ≤ maxRowOpElements ∧ CellsWithin row.cells

instance : DecidablePred WithinLimits := fun op => by
  cases op <;> unfold WithinLimits <;> infer_instance

/-- What the source's field types guarantee: a `u32` version, `u64` lamports, a bounded encoding. -/
def Representable (op : RowOp) : Prop :=
  op.specVersion < 2 ^ 32 ∧ (encode op).length < 2 ^ 64 ∧
    match op with
    | restate _ _ deletes => ∀ delete ∈ deletes, delete.lamport < 2 ^ 64
    | restateRows _ _ rows => ∀ row ∈ rows, row.lamport < 2 ^ 64
    | _ => True

instance : DecidablePred Representable := fun op => by
  cases op <;> unfold Representable <;> infer_instance

end RowOp

/-! ## 4. Values and cells are judged -/

theorem addressable_of_fits {v : TypedValue} (hlen : (encodeValue v).length < 2 ^ 64) :
    v.Addressable := by
  cases v with
  | text s =>
    simp only [encodeValue, putStr, length_append] at hlen
    show (utf8 s).length < 2 ^ 64
    omega
  | blob bs =>
    simp only [encodeValue, putBytes, length_append] at hlen
    show bs.length < 2 ^ 64
    omega
  | _ => trivial

theorem fit_decodeValue (v : TypedValue) : ReadsFit decodeValue (encodeValue v) v :=
  fun hlen => reads_decodeValue (addressable_of_fits hlen)

theorem encodeValue_ne_nil (v : TypedValue) : encodeValue v ≠ [] := by
  cases v with
  | null => exact cons_ne_nil _ _
  | bool b => exact cons_ne_nil _ _
  | i64 n =>
    simp only [encodeValue, putInt]
    split_ifs <;> exact head_ne_nil _ _
  | text s => exact putStr_ne_nil s
  | blob bs => simp [encodeValue, putBytes, head_ne_nil]

theorem judges_cappedLen {n : Nat} (h : n < 2 ^ 64) :
    Judges cappedLen (putArray n) n (n ≤ maxRowOpElements) := by
  have hcount := (reads_expectDefiniteLen h).fit.judges
  refine (hcount.bind_nil (Judges.check (Reads.pure n).fit.judges)).iff ?_
  simp

theorem judges_counted {α : Type} {put : α → Bytes} {xs : List α} {read : Nat → Decoder (List α)}
    {C : Prop} (hne : ∀ x ∈ xs, put x ≠ []) (h : Judges (read xs.length) (xs.flatMap put) xs C) :
    Judges (cappedLen >>= read) (putList put xs) xs (xs.length ≤ maxRowOpElements ∧ C) :=
  fun hlen => (judges_cappedLen (length_lt_of_putList hne hlen)).bind h hlen

theorem judges_decodeValues (pk : List TypedValue) :
    Judges decodeValues (encodeValues pk) pk (pk.length ≤ maxRowOpElements) := by
  have hitems : Judges (getItems decodeValue pk.length) (pk.flatMap encodeValue) pk (∀ v ∈ pk, True) :=
    Judges.items fun v _ => (fit_decodeValue v).judges
  exact (judges_counted (fun v _ => encodeValue_ne_nil v) hitems).iff (by simp)

theorem judges_requireAfter (prev : Option String) (key text : String) :
    Judges (requireAfter prev key text) [] () (∀ k ∈ prev, k < key) := by
  refine (Reads.pure ()).fit.judges.check.iff ?_
  cases prev <;> simp

theorem judges_decodeCell (prev : Option String) (cell : Cell) :
    Judges (decodeCell prev) (encodeCell cell) cell ((∀ k ∈ prev, k < cell.column) ∧ True) := by
  simp only [encodeCell, append_assoc]
  exact (fit_expectArray (by decide)).andThen <| (fit_getStr _).andThen <|
    (judges_requireAfter prev _ _).nil_bind <| (fit_decodeValue _).judges.bind_pure (by rfl)

theorem encodeCell_ne_nil (cell : Cell) : encodeCell cell ≠ [] := by
  simp [encodeCell, putArray, head_ne_nil]

theorem isChain_sorted_iff {α : Type} (key : α → String) (xs : List α) :
    ((none : Option String).toList ++ (sorted key xs).map key).IsChain (· < ·) ↔
      (xs.map key).Nodup := by
  have hperm := (sorted_perm key xs).map key
  have hle : ((sorted key xs).map key).Pairwise (· ≤ ·) :=
    pairwise_map.mpr (pairwise_sorted key xs)
  rw [Option.toList_none, nil_append, isChain_iff_pairwise, ← hperm.nodup_iff]
  constructor
  · exact fun h => h.imp fun hlt => hlt.ne
  · exact fun h => (hle.and h).imp fun hx => lt_of_le_of_ne hx.1 hx.2

theorem judges_decodeCells (cells : List Cell) :
    Judges decodeCells (encodeCells cells) (sortCells cells) (CellsWithin cells) := by
  have hitems := Judges.ascending none fun prev c (_ : c ∈ sortCells cells) =>
    judges_decodeCell prev c
  refine (judges_counted (fun c _ => encodeCell_ne_nil c) hitems).iff ?_
  unfold CellsWithin sortCells
  rw [isChain_sorted_iff, (sorted_perm Cell.column cells).length_eq]
  simp

theorem fit_decodeDevice (device : DeviceFingerprint) :
    ReadsFit decodeDevice (putBytes device.toBytes) device :=
  (fit_getBytes _).bind_pure (fixedBytes32_toBytes device "device")

theorem fit_getUInt {n bound : Nat} (hn : n < 2 ^ 64) (hb : n < bound) :
    ReadsFit (getUInt bound) (putUInt n) n :=
  (reads_getUInt hn hb).fit

/-! ## 5. Batches are judged -/

theorem judges_decodeDelete (prev : Option String) {delete : StatedDelete}
    (hlam : delete.lamport < 2 ^ 64) :
    Judges (decodeDelete prev) (encodeDelete delete) delete
      ((∀ k ∈ prev, k < delete.rowPk) ∧ delete.pk.length ≤ maxRowOpElements) := by
  have hfields : Judges (decodeDelete prev) (encodeDelete delete) delete
      (delete.pk.length ≤ maxRowOpElements ∧ (∀ k ∈ prev, k < delete.rowPk) ∧ True) := by
    simp only [encodeDelete, append_assoc]
    exact (fit_expectArray (by decide)).andThen <| (judges_decodeValues delete.pk).bind <|
      (judges_requireAfter prev delete.rowPk _).nil_bind <| (fit_decodeDevice delete.device).andThen <|
      (fit_getUInt hlam hlam).judges.bind_pure rfl
  exact hfields.iff (by tauto)

theorem judges_decodeStatedRow (prev : Option String) {row : StatedRow}
    (hlam : row.lamport < 2 ^ 64) :
    Judges (decodeStatedRow prev) (encodeStatedRow row) row.canonical
      ((∀ k ∈ prev, k < row.rowPk) ∧ row.pk.length ≤ maxRowOpElements ∧ CellsWithin row.cells) := by
  have hfields : Judges (decodeStatedRow prev) (encodeStatedRow row) row.canonical
      (row.pk.length ≤ maxRowOpElements ∧ (∀ k ∈ prev, k < row.rowPk) ∧ CellsWithin row.cells) := by
    simp only [encodeStatedRow, append_assoc]
    exact (fit_expectArray (by decide)).andThen <| (judges_decodeValues row.pk).bind <|
      (judges_requireAfter prev row.rowPk _).nil_bind <| (fit_decodeDevice row.device).andThen <|
      (fit_getUInt hlam hlam).andThen <| (judges_decodeCells row.cells).bind_pure rfl
  exact hfields.iff (by tauto)

theorem encodeCells_sortCells (cells : List Cell) : encodeCells (sortCells cells) = encodeCells cells :=
  congrArg (putList encodeCell) (sorted_eq_self (pairwise_sorted Cell.column cells))

theorem encodeStatedRow_canonical (row : StatedRow) :
    encodeStatedRow row.canonical = encodeStatedRow row := by
  unfold encodeStatedRow
  rw [show row.canonical.cells = sortCells row.cells from rfl, encodeCells_sortCells]
  rfl

theorem StatedRow.canonical_canonical (row : StatedRow) : row.canonical.canonical = row.canonical :=
  congrArg (fun cells => { row with cells := cells })
    (sorted_eq_self (pairwise_sorted Cell.column row.cells))

theorem cellsWithin_sortCells (cells : List Cell) :
    CellsWithin (sortCells cells) ↔ CellsWithin cells := by
  have hperm := sorted_perm Cell.column cells
  unfold CellsWithin sortCells
  rw [hperm.length_eq, (hperm.map Cell.column).nodup_iff]

theorem judges_batch {α : Type} {key : α → String} {put : α → Bytes}
    {read : Option String → Decoder α} {P : α → Prop} {text : String} {xs : List α}
    (hne : ∀ x ∈ xs, put x ≠ [])
    (h : ∀ prev, ∀ x ∈ xs, Judges (read prev) (put x) x ((∀ k ∈ prev, k < key x) ∧ P x)) :
    Judges (do
        let len ← cappedLen
        if len = 0 then fail (.message text) else getAscending key read none len)
      (putList put (sorted key xs)) (sorted key xs) (BatchWithin (xs.map key) ∧ ∀ x ∈ xs, P x) := by
  have hmem : ∀ x ∈ sorted key xs, x ∈ xs := fun x => (mem_sorted key).mp
  have hitems := Judges.ascending none fun prev x hx => h prev x (hmem x hx)
  refine (judges_counted (fun x hx => hne x (hmem x hx)) hitems.check).iff ?_
  have hlen := (sorted_perm key xs).length_eq
  unfold BatchWithin
  rw [isChain_sorted_iff, hlen, length_map]
  simp only [mem_sorted, length_eq_zero_iff, ne_eq, map_eq_nil_iff]
  tauto

theorem encodeDelete_ne_nil (delete : StatedDelete) : encodeDelete delete ≠ [] := by
  simp [encodeDelete, putArray, head_ne_nil]

theorem encodeStatedRow_ne_nil (row : StatedRow) : encodeStatedRow row ≠ [] := by
  simp [encodeStatedRow, putArray, head_ne_nil]

theorem map_canonical_sorted (rows : List StatedRow) :
    (sorted StatedRow.rowPk rows).map StatedRow.canonical =
      sorted StatedRow.rowPk (rows.map StatedRow.canonical) := by
  have hrank : ∀ row : StatedRow, row.canonical.rowPk = row.rowPk := fun _ => rfl
  exact map_sorted hrank rows

theorem encodeStatedRows_eq (rows : List StatedRow) :
    encodeStatedRows rows =
      putList encodeStatedRow (sorted StatedRow.rowPk (rows.map StatedRow.canonical)) := by
  rw [← map_canonical_sorted]
  unfold encodeStatedRows putList
  rw [length_map, flatMap_map]
  simp only [encodeStatedRow_canonical]

theorem judges_decodeStatedRows {rows : List StatedRow} (hlam : ∀ row ∈ rows, row.lamport < 2 ^ 64) :
    Judges decodeStatedRows (encodeStatedRows rows)
      ((sorted StatedRow.rowPk rows).map StatedRow.canonical)
      (BatchWithin (rows.map StatedRow.rowPk) ∧
        ∀ row ∈ rows, row.pk.length ≤ maxRowOpElements ∧ CellsWithin row.cells) := by
  have hread : ∀ prev, ∀ row ∈ rows.map StatedRow.canonical,
      Judges (decodeStatedRow prev) (encodeStatedRow row) row
        ((∀ k ∈ prev, k < row.rowPk) ∧ row.pk.length ≤ maxRowOpElements ∧ CellsWithin row.cells) := by
    intro prev row hmem
    obtain ⟨stated, hstated, rfl⟩ := mem_map.mp hmem
    have hlam' : stated.canonical.lamport < 2 ^ 64 := hlam stated hstated
    have hrow := judges_decodeStatedRow prev hlam'
    rwa [StatedRow.canonical_canonical] at hrow
  rw [encodeStatedRows_eq, map_canonical_sorted]
  refine (judges_batch (fun row _ => encodeStatedRow_ne_nil row) hread).iff ?_
  rw [map_map, forall_mem_map]
  refine and_congr Iff.rfl (forall₂_congr fun row _ => and_congr Iff.rfl ?_)
  exact cellsWithin_sortCells row.cells

/-! ## 6. Ops are judged -/

namespace RowOp

theorem encode_canonical (op : RowOp) : encode op.canonical = encode op := by
  have hpayload : encodePayload op.canonical = encodePayload op := by
    cases op with
    | upsert table v pk cells => exact congrArg (_ ++ ·) (encodeCells_sortCells cells)
    | remove table v pk => rfl
    | restate table v deletes =>
      have hsorted : sorted StatedDelete.rowPk (sorted StatedDelete.rowPk deletes) =
          sorted StatedDelete.rowPk deletes := sorted_eq_self (pairwise_sorted _ deletes)
      simp only [canonical, encodePayload, encodeDeletes, hsorted]
    | restateRows table v rows =>
      have hidem : StatedRow.canonical ∘ StatedRow.canonical = StatedRow.canonical :=
        funext StatedRow.canonical_canonical
      have hsorted : sorted StatedRow.rowPk (sorted StatedRow.rowPk (rows.map StatedRow.canonical)) =
          sorted StatedRow.rowPk (rows.map StatedRow.canonical) :=
        sorted_eq_self (pairwise_sorted _ _)
      simp only [canonical, encodePayload, encodeStatedRows_eq, map_map, hidem,
        map_canonical_sorted, hsorted]
  have hkind : op.canonical.kindTag = op.kindTag := by cases op <;> rfl
  unfold encode
  rw [hpayload, hkind]

theorem judges_decodePayload {op : RowOp} (h : Representable op) :
    Judges (decodePayload op.kindTag) op.encodePayload (some op.canonical) op.WithinLimits := by
  obtain ⟨hversion, -, hlam⟩ := h
  have hspec := fit_getUInt (show op.specVersion < 2 ^ 64 by omega) hversion
  cases op with
  | upsert table v pk cells =>
    simp only [encodePayload, append_assoc]
    exact (fit_expectArray (by decide)).andThen <| (fit_getStr table).andThen <| hspec.andThen <|
      (judges_decodeValues pk).bind <| (judges_decodeCells cells).bind_pure rfl
  | remove table v pk =>
    simp only [encodePayload, append_assoc]
    exact (fit_expectArray (by decide)).andThen <| (fit_getStr table).andThen <| hspec.andThen <|
      (judges_decodeValues pk).bind_pure rfl
  | restate table v deletes =>
    simp only [encodePayload, append_assoc]
    exact (fit_expectArray (by decide)).andThen <| (fit_getStr table).andThen <| hspec.andThen <|
      (judges_batch (fun delete _ => encodeDelete_ne_nil delete) fun prev delete hmem =>
        judges_decodeDelete prev (hlam delete hmem)).bind_pure rfl
  | restateRows table v rows =>
    simp only [encodePayload, append_assoc]
    exact (fit_expectArray (by decide)).andThen <| (fit_getStr table).andThen <| hspec.andThen <|
      (judges_decodeStatedRows hlam).bind_pure rfl

theorem judges_readEnvelope {op : RowOp} (h : Representable op) :
    Judges readEnvelope (encode op) (op.kindTag, some op.canonical) op.WithinLimits := by
  simp only [encode, append_assoc]
  exact (fit_expectArray (by decide)).andThen <| (fit_expectDomain domain).andThen <|
    (fit_getStr op.kindTag).andThen <| (judges_decodePayload h).bind_pure rfl

theorem decode_eq : decode = decodeEnvelope readEnvelope encode .known .unknown
    "non-canonical row-op encoding" := by
  funext bytes
  unfold decode decodeEnvelope
  congr! with x
  rcases x with ⟨⟨kind, _ | op⟩, rest⟩
  · rfl
  · rfl

theorem decode_encode {op : RowOp} (h : Representable op) :
    ((∃ d, decode (encode op) = .ok d) ↔ op.WithinLimits) ∧
      (op.WithinLimits → decode (encode op) = .ok (.known op.canonical)) := by
  rw [decode_eq]
  exact decodeEnvelope_encode (judges_readEnvelope h) h.2.1 (encode_canonical op)

theorem encode_of_decode {bytes : Bytes} {op : RowOp} (h : decode bytes = .ok (.known op)) :
    encode op = bytes := by
  rw [decode_eq] at h
  refine encode_of_decodeEnvelope (fun _ _ => DecodedRowOp.known.inj) ?_ h
  nofun

end RowOp

/-! ## 7. Row keys and hashes -/

/-- **A row key is read back as the tuple it was made of, if the tuple is under the cap.** -/
theorem rowPkValues_rowPkString {pk : List TypedValue} (hfit : (encodeValues pk).length < 2 ^ 64) :
    rowPkValues (rowPkString pk) = .ok pk ↔ pk.length ≤ maxRowOpElements := by
  obtain ⟨hread, hrefuse⟩ := judges_decodeValues pk hfit
  have hhex : hexDecode (rowPkString pk) = some (encodeValues pk) := hexDecode_hexLower _
  unfold rowPkValues
  rw [hhex]
  constructor
  · intro h
    cases hvalues : decodeValues (encodeValues pk) with
    | error e =>
      change (decodeValues (encodeValues pk) >>= _) = _ at h
      rw [hvalues] at h
      cases h
    | ok x =>
      refine hrefuse [] x ?_
      rwa [append_nil]
  · intro hlen
    have hvalues := hread hlen []
    rw [append_nil] at hvalues
    show (decodeValues (encodeValues pk) >>= _) = _
    rw [hvalues]
    rfl

theorem pkAddressable_of_fits {pk : List TypedValue} (hfit : (encodeValues pk).length < 2 ^ 64) :
    PkAddressable pk := by
  refine ⟨length_lt_of_putList (fun v _ => encodeValue_ne_nil v) hfit, fun v hv => ?_⟩
  unfold encodeValues putList at hfit
  rw [length_append] at hfit
  exact addressable_of_fits (fit_of_mem_flatMap hv (by omega))

/-- **The hash of a row does not see the order of its cells**, as long as no column stands twice. -/
theorem cellsHash_congr (sha256 : Bytes → Bytes32) {cells cells' : List Cell}
    (hcol : (cells.map Cell.column).Nodup) (hcol' : (cells'.map Cell.column).Nodup)
    (hmem : ∀ c, c ∈ cells ↔ c ∈ cells') : cellsHash sha256 cells = cellsHash sha256 cells' := by
  have hperm : cells.Perm cells' :=
    (perm_ext_iff_of_nodup hcol.of_map hcol'.of_map).mpr hmem
  have hsort : sortCells cells = sortCells cells' :=
    sorted_eq_of_perm (fun a ha b hb => inj_on_of_nodup_map hcol ha hb) hperm
  have henc : encodeCells cells = encodeCells cells' := congrArg (putList encodeCell) hsort
  unfold cellsHash
  rw [henc]

/-- **The row codec is canonical and row keys are injective.** An op is read back exactly when it is
    within the reader's limits, and then in canonical form; bytes read as a known op are its
    encoding; a row key gives back its tuple exactly when that is under the cap, and two tuples
    never share one; the hash of a row with distinct columns is a function of the set of its cells.
    -/
theorem rowCodec_canonical (sha256 : Bytes → Bytes32) :
    (∀ op : RowOp, op.Representable →
      ((∃ d, RowOp.decode op.encode = .ok d) ↔ op.WithinLimits) ∧
      (op.WithinLimits → RowOp.decode op.encode = .ok (.known op.canonical))) ∧
    (∀ bytes op, RowOp.decode bytes = .ok (.known op) → op.encode = bytes) ∧
    (∀ pk, (encodeValues pk).length < 2 ^ 64 →
      (rowPkValues (rowPkString pk) = .ok pk ↔ pk.length ≤ maxRowOpElements)) ∧
    (∀ pk pk', (encodeValues pk).length < 2 ^ 64 → (encodeValues pk').length < 2 ^ 64 →
      rowPkString pk = rowPkString pk' → pk = pk') ∧
    ∀ cells cells' : List Cell, (cells.map Cell.column).Nodup → (cells'.map Cell.column).Nodup →
      (∀ c, c ∈ cells ↔ c ∈ cells') → cellsHash sha256 cells = cellsHash sha256 cells' := by
  refine ⟨fun op => RowOp.decode_encode, fun _ _ => RowOp.encode_of_decode,
    fun _ => rowPkValues_rowPkString, ?_, fun _ _ => cellsHash_congr sha256⟩
  intro pk pk' hfit hfit' heq
  exact rowPkString_inj (pkAddressable_of_fits hfit) (pkAddressable_of_fits hfit') heq

/-- Two cells out of order are read back in order, and the key of their row gives back its tuple. -/
theorem rowCodec_canonical_upsert :
    RowOp.decode (RowOp.encode (.upsert "t" 1 [.i64 7] [⟨"b", .null⟩, ⟨"a", .bool true⟩])) =
        .ok (.known (.upsert "t" 1 [.i64 7] [⟨"a", .bool true⟩, ⟨"b", .null⟩])) ∧
      rowPkValues (rowPkString [.i64 7, .text "x"]) = .ok [.i64 7, .text "x"] := by
  have h := rowCodec_canonical fun _ => 0
  refine ⟨(h.1 _ (by decide +kernel)).2 (by decide +kernel), ?_⟩
  exact (h.2.2.1 _ (by decide +kernel)).mpr (by decide +kernel)

/-- A tuple above the cap has a key nothing is read from, a column twice is not read back and its
    order is seen by the hash, and a batch is read back in the order of its keys. -/
theorem rowCodec_limits :
    rowPkValues (rowPkString (List.replicate 4097 .null)) ≠ .ok (List.replicate 4097 .null) ∧
      RowOp.decode (RowOp.encode (.upsert "t" 1 [.i64 7] [⟨"a", .null⟩, ⟨"a", .bool true⟩])) =
        .error (.message "row-op cells not sorted or duplicated") ∧
      encodeCells [⟨"a", .null⟩, ⟨"a", .bool true⟩] ≠ encodeCells [⟨"a", .bool true⟩, ⟨"a", .null⟩] ∧
      RowOp.decode (RowOp.encode (.restate "t" 1 [⟨[.i64 2], 0, 1⟩, ⟨[.i64 1], 0, 1⟩])) =
        .ok (.known (.restate "t" 1 [⟨[.i64 1], 0, 1⟩, ⟨[.i64 2], 0, 1⟩])) := by
  refine ⟨?_, by decide +kernel, by decide +kernel, by decide +kernel⟩
  rw [ne_eq, rowPkValues_rowPkString (by decide +kernel), length_replicate]
  decide

end RagRat.TableSync
