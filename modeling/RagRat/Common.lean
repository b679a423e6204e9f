/-
  File:      RagRat/Common.lean
  Subject:   What every log of the store shares: 32-byte identities, the ordering metadata of an
             entry and the lowercase hex the store spells byte strings in.

  A `[u8; 32]` is read as the big-endian number of its bytes: the order of the byte strings is the
  order of the numbers, and so is the order of their fixed-width lowercase hex.
-/
import Mathlib.Order.Fin.Basic
import RagRat.Lib.Cbor

namespace RagRat

open List
open Lib.Cbor (Byte Bytes utf8)

/-- A `[u8; 32]`, by its big-endian value. -/
abbrev Bytes32 := Fin (2 ^ 256)

namespace Bytes32

-- named once, so that no definition carries its own proof of them
instance neZero : NeZero (2 ^ 256) := inferInstance

instance lawfulBEq : LawfulBEq Bytes32 := inferInstance

/-- The 32 bytes of an identity, most significant first. -/
def toBytes (h : Bytes32) : Bytes := Lib.Cbor.beBytes 32 h.val

/-- The identity 32 bytes spell. -/
def ofBytes (bs : Bytes) : Bytes32 := Fin.ofNat _ (Lib.Cbor.ofBe bs)

theorem ofBytes_toBytes (h : Bytes32) : ofBytes h.toBytes = h := by
  have hval : Lib.Cbor.ofBe h.toBytes = h.val :=
    Lib.Cbor.ofBe_beBytes 32 h.val (lt_of_lt_of_eq h.isLt (by decide))
  unfold ofBytes
  rw [hval]
  exact Fin.ofNat_val_eq_self h

end Bytes32

/-- A device, by the digest of its key. -/
abbrev DeviceFingerprint := Bytes32

/-- A content stream. -/
abbrev StreamId := Bytes32

/-- The digest an entry is known by. -/
abbrev EntryHash := Bytes32

/-- The ordering key of an entry: a per-stream Lamport counter and the authoring device. -/
structure OpMeta where
  lamport : Nat
  device : DeviceFingerprint
  deriving DecidableEq

/-! ## Lowercase hex -/

/-- Two lowercase hex digits a byte. -/
def hexLower (bs : Bytes) : String :=
  String.ofList (bs.flatMap fun b => [Nat.digitChar (b.val / 16), Nat.digitChar (b.val % 16)])

theorem digitChar_inj : ∀ m n : Fin 16, Nat.digitChar m = Nat.digitChar n → m = n := by
  decide

theorem hexLower_injective : Function.Injective hexLower := by
  intro bs cs h
  have hl := String.ofList_injective h
  clear h
  induction bs generalizing cs with
  | nil =>
    cases cs with
    | nil => rfl
    | cons c cs => simp at hl
  | cons b bs ih =>
    cases cs with
    | nil => simp at hl
    | cons c cs =>
      simp only [flatMap_cons, cons_append, nil_append, List.cons.injEq] at hl
      obtain ⟨hhi, hlo, htl⟩ := hl
      have h1 := digitChar_inj ⟨b.val / 16, by omega⟩ ⟨c.val / 16, by omega⟩ hhi
      have h2 := digitChar_inj ⟨b.val % 16, by omega⟩ ⟨c.val % 16, by omega⟩ hlo
      simp only [Fin.mk.injEq] at h1 h2
      have hbc : b = c := Fin.ext (by omega)
      rw [hbc, ih htl]

/-- The value of one hex digit, either case. -/
def hexNibble (byte : Byte) : Option Nat :=
  if 48 ≤ byte.val ∧ byte.val ≤ 57 then some (byte.val - 48)
  else if 97 ≤ byte.val ∧ byte.val ≤ 102 then some (byte.val - 97 + 10)
  else if 65 ≤ byte.val ∧ byte.val ≤ 70 then some (byte.val - 65 + 10)
  else none

/-- The bytes that pairs of hex digits spell. -/
def hexPairs : Bytes → Option Bytes
  | [] => some []
  | [_] => none
  | high :: low :: rest => do
    let h ← hexNibble high
    let l ← hexNibble low
    let out ← hexPairs rest
    some (Fin.ofNat 256 (h * 16 + l) :: out)

/-- The bytes a hex text of even length spells. -/
def hexDecode (text : String) : Option Bytes := hexPairs (utf8 text)

theorem utf8_ofList (cs : List Char) :
    utf8 (String.ofList cs) = cs.flatMap fun c => (String.utf8EncodeChar c).map UInt8.toFin := by
  unfold utf8
  simp [List.utf8Encode, map_flatMap]

/-- The byte of a lowercase hex digit. -/
def digitByte (n : Nat) : Byte := Fin.ofNat 256 (if n < 10 then 48 + n else 87 + n)

theorem digitByte_spec : ∀ n : Fin 16,
    (String.utf8EncodeChar (Nat.digitChar n)).map UInt8.toFin = [digitByte n] ∧
      hexNibble (digitByte n) = some n.val := by
  decide

theorem utf8_hexLower (bs : Bytes) :
    utf8 (hexLower bs) = bs.flatMap fun b => [digitByte (b.val / 16), digitByte (b.val % 16)] := by
  unfold hexLower
  rw [utf8_ofList, flatMap_assoc]
  congr 1
  funext b
  have hhi := (digitByte_spec ⟨b.val / 16, by omega⟩).1
  have hlo := (digitByte_spec ⟨b.val % 16, by omega⟩).1
  simp only at hhi hlo
  rw [flatMap_cons, flatMap_singleton, hhi, hlo]
  rfl

theorem hexDecode_hexLower (bs : Bytes) : hexDecode (hexLower bs) = some bs := by
  unfold hexDecode
  rw [utf8_hexLower]
  induction bs with
  | nil => rfl
  | cons b bs ih =>
    have hhi := (digitByte_spec ⟨b.val / 16, by omega⟩).2
    have hlo := (digitByte_spec ⟨b.val % 16, by omega⟩).2
    have hb : Fin.ofNat 256 (b.val / 16 * 16 + b.val % 16) = b := by
      rw [Nat.div_add_mod']
      exact Fin.ofNat_val_eq_self b
    rw [flatMap_cons, cons_append, singleton_append, hexPairs, ih, hhi, hlo]
    exact congrArg (fun x => some (x :: bs)) hb

end RagRat
