/-
  File:      RagRat/TableSync/RowOp.lean
  Subject:   The row op of the table log (`row_op.rs`) and the identities it is filed under.

  * `RowOp` -- the four mutations: an upsert, a remove, and the two batches that re-carry earlier
    deletes and earlier rows at their original identities;
  * `rowPkString` -- the key of a row in every bookkeeping table: the hex of the canonical CBOR of
    its primary key. `rowPkString_inj`: two rows never share one;
  * `cellsHash` -- the anti-echo identity of a row's synced cells.

  `Addressable` is what the Rust types guarantee and a Lean list does not: a length is a `u64`.
-/
import Mathlib.Data.List.Sort
import Mathlib.Data.String.Basic
import RagRat.Common

namespace RagRat.TableSync

open Lib.Cbor

/-! ## 1. Values, cells and ops -/

/-- A value of a synced column. -/
inductive TypedValue where
  | null
  | bool (b : Bool)
  | i64 (n : Int64)
  | text (s : String)
  | blob (bs : Bytes)
  deriving DecidableEq

open TypedValue

/-- A column and its value. -/
structure Cell where
  column : String
  value : TypedValue
  deriving DecidableEq

/-- One live row a `restateRows` re-carries: its key, its cells and its write. -/
structure StatedRow where
  pk : List TypedValue
  device : DeviceFingerprint
  lamport : Nat
  cells : List Cell
  deriving DecidableEq

/-- One delete a `restate` re-carries, with the identity it was signed at. -/
structure StatedDelete where
  pk : List TypedValue
  device : DeviceFingerprint
  lamport : Nat
  deriving DecidableEq

/-- **The operations on rows.** -/
inductive RowOp where
  | upsert (table : String) (specVersion : Nat) (pk : List TypedValue) (cells : List Cell)
  | remove (table : String) (specVersion : Nat) (pk : List TypedValue)
  | restate (table : String) (specVersion : Nat) (deletes : List StatedDelete)
  | restateRows (table : String) (specVersion : Nat) (rows : List StatedRow)
  deriving DecidableEq

namespace RowOp

/-- The table of an op. -/
def table : RowOp → String
  | upsert t _ _ _ | remove t _ _ | restate t _ _ | restateRows t _ _ => t

/-- The version it was written under. -/
def specVersion : RowOp → Nat
  | upsert _ v _ _ | remove _ v _ | restate _ v _ | restateRows _ v _ => v

/-- Every row the op names. -/
def pks : RowOp → List (List TypedValue)
  | upsert _ _ pk _ | remove _ _ pk => [pk]
  | restate _ _ deletes => deletes.map StatedDelete.pk
  | restateRows _ _ rows => rows.map StatedRow.pk

end RowOp

/-! ## 2. The wire form of values and cells -/

/-- A value. -/
def encodeValue : TypedValue → Bytes
  | .null => putNull
  | .bool b => putBool b
  | .i64 n => putInt n
  | .text s => putStr s
  | .blob bs => putBytes bs

/-- A list of values. -/
def encodeValues (values : List TypedValue) : Bytes := putList encodeValue values

/-- Cells are written sorted by column name, each as a `[column, value]` pair. -/
def encodeCells (cells : List Cell) : Bytes :=
  putList (fun c => putArray 2 ++ putStr c.column ++ encodeValue c.value)
    (cells.insertionSort fun a b => a.column ≤ b.column)

/-- A value is read by the type its first byte announces. -/
def decodeValue : Decoder TypedValue := do
  match ← datatype with
  | .null =>
    getNull
    pure .null
  | .bool => bool <$> getBool
  | .unsigned | .negative => i64 <$> getInt
  | .bytes => blob <$> getBytes
  | .text => text <$> getStr
  | .array | .other => fail (.message "unexpected CBOR type for a row-op value")

/-! ## 3. Row identities -/

/-- A key, as the merge state names its row. -/
def rowPkString (pk : List TypedValue) : String := hexLower (encodeValues pk)

/-- A value whose length fits the `u64` a CBOR header carries. -/
def TypedValue.Addressable : TypedValue → Prop
  | .text s => (utf8 s).length < 2 ^ 64
  | .blob bs => bs.length < 2 ^ 64
  | _ => True

instance : DecidablePred Addressable := fun v => by
  cases v <;> unfold Addressable <;> infer_instance

/-- A primary key whose lengths fit a `u64`. -/
def PkAddressable (pk : List TypedValue) : Prop :=
  pk.length < 2 ^ 64 ∧ ∀ v ∈ pk, v.Addressable

instance : DecidablePred PkAddressable := fun _ => inferInstanceAs (Decidable (_ ∧ _))

theorem reads_decodeValue {v : TypedValue} (hv : v.Addressable) :
    Reads decodeValue (encodeValue v) v := by
  cases v with
  | null => exact Reads.peek (fun _ => rfl) (reads_getNull.bind_pure rfl)
  | bool b => cases b <;> exact Reads.peek (fun _ => rfl) ((reads_getBool _).map _)
  | i64 n =>
    obtain ⟨t, ht, hpeek⟩ := datatype_putInt n
    refine Reads.peek hpeek ?_
    rcases ht with rfl | rfl
    · exact (reads_getInt n).map i64
    · exact (reads_getInt n).map i64
  | text s => exact Reads.peek (datatype_putStr s) ((reads_getStr hv).map _)
  | blob bs => exact Reads.peek (datatype_putBytes bs) ((reads_getBytes hv).map _)

theorem prefixInj_encodeValue : PrefixInj Addressable encodeValue :=
  Reads.prefixInj fun _ => reads_decodeValue

theorem rowPkString_inj {pk pk' : List TypedValue} (h : PkAddressable pk) (h' : PkAddressable pk')
    (heq : rowPkString pk = rowPkString pk') : pk = pk' :=
  prefixInj_encodeValue.list.injective h h' (hexLower_injective heq)

section Hash

variable (sha256 : Bytes → Bytes32)

/-- The anti-echo identity of a row: the hex `sha256` of its synced cells. -/
def cellsHash (cells : List Cell) : String := hexLower (sha256 (encodeCells cells)).toBytes

end Hash

end RagRat.TableSync
