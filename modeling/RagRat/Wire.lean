/-
  File:      RagRat/Wire.lean
  Subject:   THE WIRE DISCIPLINE every object of the op-log shares, over the CBOR of `Lib/Cbor.lean`.

  * `requireCanonicalCbor` -- the walk over raw bytes that an opaque value must pass: exactly one
    item, shortest headers, definite lengths, sorted map keys, no float, at most `maxCborDepth` deep.
  * `expectArray`, `expectDefiniteLen`, `decodeStrArray`, `expectDomain`, `fixedBytes32` -- the
    structural readers of the typed decoders, with what they read back.
  * `decodeEnvelope` -- the decoding the ops share; `encode_of_decodeEnvelope`, `decodeEnvelope_encode`
    -- it accepts one spelling of a known op, and exactly what the reader of its payload accepts.
-/
import RagRat.Common

namespace RagRat.Wire

open List
open Lib.Cbor

/-! ## 1. The canonical walk -/

/-- A check with its message. -/
def require (condition : Bool) (text : String) : Decoder Unit :=
  if condition then pure () else fail (.message text)

/-- The next byte. -/
def readU8 : Decoder Byte
  | [] => .error (.message "unexpected end of CBOR")
  | b :: rest => .ok (b, rest)

/-- The next `n` bytes, as a big-endian number. -/
def readBe (n : Nat) : Decoder Nat := fun bs =>
  if n ≤ bs.length then .ok (ofBe (bs.take n), bs.drop n)
  else .error (.message "unexpected end of CBOR")

/-- The argument of an information above 24: `n` bytes that no shorter form could have carried. -/
def readWide (major n atLeast : Nat) (text : String) : Decoder (Nat × Nat) := do
  require (major ≠ 7) "float is non-canonical (integer-only wire format)"
  let v ← readBe n
  require (atLeast ≤ v) text
  pure (major, v)

/-- One header, as the major type and its argument. -/
def readCanonicalHeader : Decoder (Nat × Nat) := do
  let first ← readU8
  let major := first.val / 32
  let info := first.val % 32
  if info ≤ 23 then
    pure (major, info)
  else if info = 24 then
    let v ← readU8
    require (24 ≤ v.val) "non-minimal 1-byte CBOR argument"
    pure (major, v.val)
  else if info = 25 then
    readWide major 2 (2 ^ 8) "non-minimal 2-byte CBOR argument"
  else if info = 26 then
    readWide major 4 (2 ^ 16) "non-minimal 4-byte CBOR argument"
  else if info = 27 then
    readWide major 8 (2 ^ 32) "non-minimal 8-byte CBOR argument"
  else
    fail (.message "reserved or indefinite CBOR length")

/-- The content bytes of a string of length `n`. -/
def advanceString (n : Nat) : Decoder Bytes := fun bs =>
  if n ≤ bs.length then .ok (bs.take n, bs.drop n)
  else .error (.message "CBOR string runs past end")

/-- The bytes a reader consumes. -/
def consumed (p : Decoder Unit) : Decoder Bytes := fun bs => do
  let (_, rest) ← p bs
  .ok (bs.take (bs.length - rest.length), rest)

/-- `n` items in sequence. -/
def checkItems (item : Decoder Unit) : Nat → Decoder Unit
  | 0 => pure ()
  | n + 1 => do
    item
    checkItems item n

/-- `n` pairs of a map, each key strictly above the one before it as bytes. -/
def checkPairs (item : Decoder Unit) : Option Bytes → Nat → Decoder Unit
  | _, 0 => pure ()
  | prev, n + 1 => do
    let key ← consumed item
    require (prev.all fun p => p < key) "map keys not sorted or duplicated"
    item
    checkPairs item (some key) n

/-- How deep an opaque value may nest. -/
def maxCborDepth : Nat := 32

/-- One canonical item, with the levels of nesting left, this one included. -/
def checkCanonicalItem : Nat → Decoder Unit
  | 0 => fail (.message "CBOR nesting too deep")
  | depth + 1 => do
    let (major, arg) ← readCanonicalHeader
    match major with
    | 0 | 1 => pure ()
    | 2 =>
      let _ ← advanceString arg
      pure ()
    | 3 =>
      let text ← advanceString arg
      require (fromUtf8 text).isSome "invalid UTF-8 in CBOR text string"
    | 4 => checkItems (checkCanonicalItem depth) arg
    | 5 => checkPairs (checkCanonicalItem depth) none arg
    | 6 => checkCanonicalItem depth
    | 7 => pure ()
    | _ => fail (.message "invalid CBOR major type")

/-- The bytes are exactly one canonical item. -/
def requireCanonicalCbor (bytes : Bytes) : Except Error Unit := do
  let (_, rest) ← checkCanonicalItem (maxCborDepth + 1) bytes
  if rest = [] then .ok () else .error (.message "trailing bytes after canonical CBOR item")

/-! ## 2. Structural readers -/

/-- An array header with a length. -/
def expectDefiniteLen : Decoder Nat := do
  match ← getArray with
  | some n => pure n
  | none => fail (.message "expected a definite-length array")

/-- An array header of the length wanted. -/
def expectArray (want : Nat) : Decoder Unit := do
  let got ← expectDefiniteLen
  if got = want then pure ()
  else fail (.message s!"expected a {want}-element array, got {got}")

/-- A counted list. -/
def decodeList {α : Type} (read : Decoder α) : Decoder (List α) := do
  let len ← expectDefiniteLen
  getItems read len

/-- An array of texts. -/
def decodeStrArray : Decoder (List String) := decodeList getStr

/-- The tag that says what kind of object follows. -/
def expectDomain (want : String) : Decoder Unit := do
  let got ← getStr
  if got = want then pure ()
  else fail (.message ("unknown domain tag `" ++ got ++ "` (expected `" ++ want ++ "`)"))

/-- An identity, read from exactly 32 bytes. -/
def fixedBytes32 (bytes : Bytes) (field : String) : Decoder Bytes32 :=
  if bytes.length = 32 then pure (Bytes32.ofBytes bytes)
  else fail (.message s!"{field} must be 32 bytes, got {bytes.length}")

theorem reads_expectDefiniteLen {n : Nat} (h : n < 2 ^ 64) : Reads expectDefiniteLen (putArray n) n :=
  (reads_getArray h).bind_pure rfl

theorem fit_expectArray {n : Nat} (h : n < 2 ^ 64) : ReadsFit (expectArray n) (putArray n) () :=
  ((reads_expectDefiniteLen h).bind_pure (by simp)).fit

theorem fit_decodeList {α : Type} {read : Decoder α} {put : α → Bytes} {xs : List α}
    (hne : ∀ x ∈ xs, put x ≠ []) (h : ∀ x ∈ xs, ReadsFit read (put x) x) :
    ReadsFit (decodeList read) (putList put xs) xs := by
  intro hlen
  have hcount := reads_expectDefiniteLen (length_lt_of_putList hne hlen)
  exact hcount.fit.bind (ReadsFit.items h) hlen

theorem fit_expectDomain (want : String) : ReadsFit (expectDomain want) (putStr want) () :=
  (fit_getStr want).bind_pure (if_pos rfl)

theorem fixedBytes32_toBytes (h : Bytes32) (field : String) :
    fixedBytes32 h.toBytes field = pure h := by
  have hlen : h.toBytes.length = 32 := beBytes_length 32 h.val
  unfold fixedBytes32
  rw [if_pos hlen, Bytes32.ofBytes_toBytes]

theorem fit_decodeStrArray (xs : List String) : ReadsFit decodeStrArray (putList putStr xs) xs :=
  fit_decodeList (fun x _ => putStr_ne_nil x) fun x _ => fit_getStr x

/-! ## 3. Envelopes -/

section Envelope

variable {ω δ : Type} (read : Decoder (String × Option ω)) (encode : ω → Bytes) (known : ω → δ)
  (unknown : String → Bytes → δ) (refusal : String)

/-- A known op has to be written as it is encoded; an unknown one is kept if its bytes are
    canonical. -/
def decodeEnvelope (bytes : Bytes) : Except Error δ := do
  let ((kind, op), _) ← read bytes
  match op with
  | some op => if encode op = bytes then .ok (known op) else .error (.message refusal)
  | none =>
    requireCanonicalCbor bytes
    .ok (unknown kind bytes)

variable {read encode known unknown refusal}

theorem encode_of_decodeEnvelope {bytes : Bytes} {op : ω} (hknown : Function.Injective known)
    (hne : ∀ kind raw, unknown kind raw ≠ known op)
    (h : decodeEnvelope read encode known unknown refusal bytes = .ok (known op)) :
    encode op = bytes := by
  unfold decodeEnvelope at h
  rcases hread : read bytes with e | ⟨⟨kind, o⟩, rest⟩
  all_goals rw [hread] at h
  · cases h
  cases o with
  | some op' =>
    change (if encode op' = bytes then Except.ok (known op') else _) = _ at h
    split_ifs at h with henc
    rw [← hknown (Except.ok.inj h)]
    exact henc
  | none =>
    change (requireCanonicalCbor bytes >>= fun _ => _) = _ at h
    rcases hcanon : requireCanonicalCbor bytes with e | ⟨⟩
    all_goals rw [hcanon] at h
    · cases h
    · exact absurd (Except.ok.inj h) (hne kind bytes)

/-- **An op is decoded exactly if its envelope is read**, as what the reader makes of it. -/
theorem decodeEnvelope_encode {op op' : ω} {kind : String} {C : Prop}
    (h : Judges read (encode op) (kind, some op') C) (hfit : (encode op).length < 2 ^ 64)
    (hop : encode op' = encode op) :
    ((∃ d, decodeEnvelope read encode known unknown refusal (encode op) = .ok d) ↔ C) ∧
      (C → decodeEnvelope read encode known unknown refusal (encode op) = .ok (known op')) := by
  have hread : C → decodeEnvelope read encode known unknown refusal (encode op) = .ok (known op') := by
    intro hC
    have hread := (h hfit).1 hC []
    rw [append_nil] at hread
    unfold decodeEnvelope
    rw [hread]
    exact if_pos hop
  refine ⟨⟨fun ⟨d, hd⟩ => ?_, fun hC => ⟨_, hread hC⟩⟩, hread⟩
  unfold decodeEnvelope at hd
  cases hx : read (encode op) with
  | error e =>
    rw [hx] at hd
    cases hd
  | ok x => exact (h hfit).2 [] x ((append_nil (encode op)).symm ▸ hx)

end Envelope

end RagRat.Wire
