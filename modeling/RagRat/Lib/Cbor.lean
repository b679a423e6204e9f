/-
  File:      RagRat/Lib/Cbor.lean
  Subject:   DETERMINISTIC CBOR (RFC 8949 §4.2): integers, byte and text strings, arrays, booleans
             and null, as an encoder writes them and a decoder reads them back.

  * `head` -- the shortest header of a major type and its argument; every item starts with one.
  * `Decoder` -- a reader over the remaining bytes; `Reads p bs a` says that `p` consumes exactly
    `bs` in front of ANY rest and answers `a`. `Reads.bind` is the rule a record's reader is
    assembled with, field by field; `ReadsFit` is `Reads` for words shorter than `2 ^ 64`.
  * `Judges p bs a C` -- a reader that refuses some of the words that are written: it reads `bs` back
    exactly if `C`. `Judges.bind` adds the conditions of the parts up.
  * `PrefixInj` -- a code no word of which starts another one. Whatever some reader reads back is
    such a code (`Reads.prefixInj`), and so is a counted list of its words (`PrefixInj.list`).

  An argument is a `u64` on the wire; the bound `n < 2 ^ 64` is stated where a value enters.
-/
import Mathlib.Data.Fin.Basic
import Mathlib.Data.List.Basic
import Mathlib.Tactic.Ring

namespace RagRat.Lib.Cbor

open List

variable {bs u v r r' : Bytes} {n k info bound : Nat}

/-- A byte. -/
abbrev Byte := Fin 256

instance Byte.neZero : NeZero 256 := inferInstance

/-- A text of bytes. -/
abbrev Bytes := List Byte

/-! ## 1. Big-endian numbers -/

/-- The `k` low bytes of `n`, most significant first. -/
def beBytes : Nat → Nat → Bytes
  | 0, _ => []
  | k + 1, n => beBytes k (n / 256) ++ [Fin.ofNat 256 n]

/-- The number a big-endian byte string spells. -/
def ofBe (bs : Bytes) : Nat := bs.foldl (fun acc b => acc * 256 + b.val) 0

@[simp] theorem beBytes_length (k n : Nat) : (beBytes k n).length = k := by
  induction k generalizing n with
  | zero => rfl
  | succ k ih => simp [beBytes, ih]

theorem ofBe_beBytes (k n : Nat) (h : n < 256 ^ k) : ofBe (beBytes k n) = n := by
  induction k generalizing n with
  | zero =>
    have : n = 0 := by simpa using h
    subst this
    rfl
  | succ k ih =>
    have hk : n / 256 < 256 ^ k := by
      rw [Nat.div_lt_iff_lt_mul (by decide)]
      rwa [Nat.pow_succ] at h
    have hrec := ih (n / 256) hk
    unfold ofBe at hrec ⊢
    rw [beBytes, foldl_append, hrec]
    simp only [foldl_cons, foldl_nil, Fin.val_ofNat]
    omega

/-! ## 2. Writing -/

/-- The shortest header of major type `major` with argument `n`. -/
def head (major n : Nat) : Bytes :=
  if n < 24 then [Fin.ofNat 256 (major * 32 + n)]
  else if n < 2 ^ 8 then Fin.ofNat 256 (major * 32 + 24) :: beBytes 1 n
  else if n < 2 ^ 16 then Fin.ofNat 256 (major * 32 + 25) :: beBytes 2 n
  else if n < 2 ^ 32 then Fin.ofNat 256 (major * 32 + 26) :: beBytes 4 n
  else Fin.ofNat 256 (major * 32 + 27) :: beBytes 8 n

/-- The UTF-8 bytes of a string. -/
def utf8 (s : String) : Bytes := s.toByteArray.data.toList.map UInt8.toFin

/-- The string a byte sequence is the UTF-8 of, if it is one. -/
def fromUtf8 (bs : Bytes) : Option String :=
  String.fromUTF8? ⟨(bs.map UInt8.ofFin).toArray⟩

/-- An unsigned number. -/
def putUInt (n : Nat) : Bytes := head 0 n

/-- A signed number. -/
def putInt (i : Int64) : Bytes :=
  if 0 ≤ i.toInt then head 0 i.toInt.toNat else head 1 (-1 - i.toInt).toNat

/-- A byte string. -/
def putBytes (bs : Bytes) : Bytes := head 2 bs.length ++ bs

/-- A text. -/
def putStr (s : String) : Bytes := head 3 (utf8 s).length ++ utf8 s

/-- The header of an array. -/
def putArray (n : Nat) : Bytes := head 4 n

/-- A boolean. -/
def putBool (b : Bool) : Bytes := [if b then 0xf5 else 0xf4]

/-- Null. -/
def putNull : Bytes := [0xf6]

/-- A counted list: the array header, then the items. -/
def putList {α : Type} (put : α → Bytes) (xs : List α) : Bytes :=
  putArray xs.length ++ xs.flatMap put

theorem fromUtf8_utf8 (s : String) : fromUtf8 (utf8 s) = some s := by
  have hb : (⟨((utf8 s).map UInt8.ofFin).toArray⟩ : ByteArray) = s.toByteArray := by
    have hcomp : UInt8.ofFin ∘ UInt8.toFin = id := by
      funext b
      rfl
    simp [utf8, hcomp]
  unfold fromUtf8 String.fromUTF8?
  rw [hb, dif_pos s.isValidUTF8]
  rfl

/-! ## 3. Reading -/

/-- Why a reader stops: an error of the CBOR decoder itself, or one its caller raises. -/
inductive Error where
  | endOfInput
  | typeMismatch
  | overflow
  | utf8
  | message (text : String)
  deriving DecidableEq

/-- A reader over the bytes not yet consumed. -/
abbrev Decoder (α : Type) := StateT Bytes (Except Error) α

/-- An error. -/
def fail {α : Type} (e : Error) : Decoder α := fun _ => .error e

/-- The next byte. -/
def byte : Decoder Byte
  | [] => .error .endOfInput
  | b :: rest => .ok (b, rest)

/-- The next `n` bytes. -/
def take (n : Nat) : Decoder Bytes := fun bs =>
  if n ≤ bs.length then .ok (bs.take n, bs.drop n) else .error .endOfInput

/-- The argument of an additional information below 28; the shortest form is not demanded here. -/
def argument (info : Nat) : Decoder Nat :=
  if info < 24 then pure info
  else if info = 24 then ofBe <$> take 1
  else if info = 25 then ofBe <$> take 2
  else if info = 26 then ofBe <$> take 4
  else if info = 27 then ofBe <$> take 8
  else fail .typeMismatch

/-- A header: the major type and the argument, `none` for an indefinite length. -/
def getHead : Decoder (Nat × Option Nat) := do
  let b ← byte
  if b.val % 32 = 31 then
    pure (b.val / 32, none)
  else
    let n ← argument (b.val % 32)
    pure (b.val / 32, some n)

/-- A header of major type `major` with a definite argument. -/
def definite (major : Nat) : Decoder Nat := do
  match ← getHead with
  | (m, some n) => if m = major then pure n else fail .typeMismatch
  | (_, none) => fail .typeMismatch

/-- A number below the bound. -/
def getUInt (bound : Nat) : Decoder Nat := do
  let n ← definite 0
  if n < bound then pure n else fail .overflow

/-- A signed number of 64 bits. -/
def getInt : Decoder Int64 := do
  match ← getHead with
  | (0, some n) => if n < 2 ^ 63 then pure (Int64.ofInt n) else fail .overflow
  | (1, some n) => if n < 2 ^ 63 then pure (Int64.ofInt (-1 - n)) else fail .overflow
  | _ => fail .typeMismatch

/-- A byte string. -/
def getBytes : Decoder Bytes := do
  let n ← definite 2
  take n

/-- A text that is UTF-8. -/
def getStr : Decoder String := do
  let n ← definite 3
  match fromUtf8 (← take n) with
  | some s => pure s
  | none => fail .utf8

/-- An array header: its length, `none` when it is indefinite. -/
def getArray : Decoder (Option Nat) := do
  let (m, n) ← getHead
  if m = 4 then pure n else fail .typeMismatch

/-- A boolean. -/
def getBool : Decoder Bool := do
  let b ← byte
  if b = 0xf4 then pure false else if b = 0xf5 then pure true else fail .typeMismatch

/-- Null. -/
def getNull : Decoder Unit := do
  let b ← byte
  if b = 0xf6 then pure () else fail .typeMismatch

/-- The type of the next item, told from its first byte and without consuming it. -/
inductive Datatype where
  | unsigned | negative | bytes | text | array | bool | null | other
  deriving DecidableEq

/-- The type of the next item, which is left there. -/
def datatype : Decoder Datatype
  | [] => .error .endOfInput
  | b :: rest => .ok (datatypeOf b.val, b :: rest)
where
  datatypeOf (b : Nat) : Datatype :=
    if b = 0xf6 then .null
    else if b = 0xf4 ∨ b = 0xf5 then .bool
    else if b ≤ 0x1b then .unsigned
    else if 0x20 ≤ b ∧ b ≤ 0x3b then .negative
    else if 0x40 ≤ b ∧ b ≤ 0x5b then .bytes
    else if 0x60 ≤ b ∧ b ≤ 0x7b then .text
    else if (0x80 ≤ b ∧ b ≤ 0x9b) ∨ b = 0x9f then .array
    else .other

/-- `n` items, one after the other. -/
def getItems {α : Type} (get : Decoder α) : Nat → Decoder (List α)
  | 0 => pure []
  | n + 1 => do
    let x ← get
    let xs ← getItems get n
    pure (x :: xs)

theorem bind_eq_ok {α β : Type} {p : Decoder α} {f : α → Decoder β} {rest : Bytes} {b : β} :
    (p >>= f) bs = .ok (b, rest) ↔ ∃ a mid, p bs = .ok (a, mid) ∧ f a mid = .ok (b, rest) := by
  show (p bs >>= fun x => f x.1 x.2) = _ ↔ _
  cases p bs with
  | error e => exact ⟨nofun, nofun⟩
  | ok x =>
    constructor
    · intro h
      exact ⟨x.1, x.2, rfl, h⟩
    · rintro ⟨a, mid, hx, h⟩
      obtain rfl : x = (a, mid) := Except.ok.inj hx
      exact h

/-! ## 4. What is written is read back -/

/-- `p` consumes exactly `bs`, whatever follows, and answers `a`. -/
def Reads {α : Type} (p : Decoder α) (bs : Bytes) (a : α) : Prop :=
  ∀ rest, p (bs ++ rest) = .ok (a, rest)

variable {α β : Type} {p get : Decoder α} {a : α} {f : α → Decoder β} {b : β} {put : α → Bytes} {xs : List α}
  {P : α → Prop}

theorem Reads.pure (a : α) : Reads (pure a) [] a := fun _ => rfl

theorem Reads.bind (h : Reads p u a) (hf : Reads (f a) v b) : Reads (p >>= f) (u ++ v) b := by
  intro rest
  rw [append_assoc]
  show (p (u ++ (v ++ rest)) >>= fun x => f x.1 x.2) = _
  rw [h (v ++ rest)]
  exact hf rest

theorem Reads.bind_pure (h : Reads p u a) (hf : f a = Pure.pure b) : Reads (p >>= f) u b := by
  have hstep := h.bind (f := f) (v := []) (b := b) (hf ▸ Reads.pure b)
  rwa [append_nil] at hstep

theorem Reads.map (f : α → β) (h : Reads p u a) : Reads (f <$> p) u (f a) := by
  rw [map_eq_pure_bind]
  exact h.bind_pure rfl

theorem Reads.peek {x : α} (h : ∀ rest, p (u ++ rest) = .ok (x, u ++ rest)) (hf : Reads (f x) u b) :
    Reads (p >>= f) u b := by
  intro rest
  show (p (u ++ rest) >>= fun y => f y.1 y.2) = _
  rw [h rest]
  exact hf rest

section

variable {major : Nat}

theorem reads_byte (b : Byte) : Reads byte [b] b := fun _ => rfl

theorem reads_take (bs : Bytes) : Reads (take bs.length) bs bs := by
  intro rest
  simp [take]

theorem reads_ofBe (h : n < 256 ^ k) : Reads (ofBe <$> take k) (beBytes k n) n := by
  have htake := reads_take (beBytes k n)
  rw [beBytes_length] at htake
  have hmap := htake.map ofBe
  rwa [ofBe_beBytes k n h] at hmap

theorem header_byte (hm : major < 8) (hi : info < 32) :
    (Fin.ofNat 256 (major * 32 + info)).val / 32 = major ∧
      (Fin.ofNat 256 (major * 32 + info)).val % 32 = info := by
  simp only [Fin.val_ofNat]
  omega

theorem reads_getHead_of (hm : major < 8) (hi : info < 31) (harg : Reads (argument info) bs n) :
    Reads getHead (Fin.ofNat 256 (major * 32 + info) :: bs) (major, some n) := by
  obtain ⟨hmaj, hinf⟩ := header_byte hm (show info < 32 by omega)
  refine (reads_byte _).bind (v := bs) ?_
  rw [hmaj, hinf, if_neg (by omega)]
  exact harg.bind_pure rfl

theorem reads_getHead (hm : major < 8) (hn : n < 2 ^ 64) :
    Reads getHead (head major n) (major, some n) := by
  unfold head
  split_ifs with h24 h8 h16 h32
  · refine reads_getHead_of hm (by omega) ?_
    unfold argument
    rw [if_pos h24]
    exact Reads.pure n
  · exact reads_getHead_of hm (by omega) (reads_ofBe (k := 1) h8)
  · exact reads_getHead_of hm (by omega) (reads_ofBe (k := 2) h16)
  · exact reads_getHead_of hm (by omega) (reads_ofBe (k := 4) h32)
  · exact reads_getHead_of hm (by omega) (reads_ofBe (k := 8) hn)

theorem reads_definite (hm : major < 8) (hn : n < 2 ^ 64) : Reads (definite major) (head major n) n :=
  (reads_getHead hm hn).bind_pure (by simp)

theorem reads_getUInt (hn : n < 2 ^ 64) (hb : n < bound) : Reads (getUInt bound) (putUInt n) n :=
  (reads_definite (by omega) hn).bind_pure (by simp [hb])

theorem reads_getInt (i : Int64) : Reads getInt (putInt i) i := by
  have hlo := Int64.le_toInt i
  have hhi := Int64.toInt_lt i
  unfold putInt
  split_ifs with h
  · have hn : i.toInt.toNat < 2 ^ 63 := by omega
    refine (reads_getHead (by omega) (by omega)).bind_pure ?_
    simp only [hn, if_true, Int.toNat_of_nonneg h, Int64.ofInt_toInt]
  · have hn : (-1 - i.toInt).toNat < 2 ^ 63 := by omega
    refine (reads_getHead (by omega) (by omega)).bind_pure ?_
    have hback : -1 - (((-1 - i.toInt).toNat : Nat) : Int) = i.toInt := by omega
    simp only [hn, if_true, hback, Int64.ofInt_toInt]

theorem reads_getBytes (h : bs.length < 2 ^ 64) : Reads getBytes (putBytes bs) bs :=
  (reads_definite (by omega) h).bind (reads_take bs)

theorem reads_getStr {s : String} (h : (utf8 s).length < 2 ^ 64) : Reads getStr (putStr s) s := by
  refine (reads_definite (by omega) h).bind ((reads_take (utf8 s)).bind_pure ?_)
  rw [fromUtf8_utf8]

theorem reads_getArray (h : n < 2 ^ 64) : Reads getArray (putArray n) (some n) :=
  (reads_getHead (by omega) h).bind_pure (by simp)

theorem reads_getBool (b : Bool) : Reads getBool (putBool b) b := by
  cases b <;> exact (reads_byte _).bind_pure rfl

theorem reads_getNull : Reads getNull putNull () :=
  (reads_byte _).bind_pure rfl

theorem reads_getItems
    (h : ∀ x ∈ xs, Reads get (put x) x) : Reads (getItems get xs.length) (xs.flatMap put) xs := by
  induction xs with
  | nil => exact Reads.pure []
  | cons x xs ih =>
    have htail := ih (forall_mem_cons.mp h).2
    rw [flatMap_cons]
    exact (h x mem_cons_self).bind (htail.bind_pure rfl)

theorem datatype_head {t : Datatype} (hm : major < 8)
    (ht : ∀ b : Byte, b.val / 32 = major → b.val % 32 ≤ 27 → datatype.datatypeOf b.val = t)
    (rest : Bytes) : datatype (head major n ++ rest) = .ok (t, head major n ++ rest) := by
  have hpeek : ∀ info bs, info ≤ 27 →
      datatype (Fin.ofNat 256 (major * 32 + info) :: bs) =
        .ok (t, Fin.ofNat 256 (major * 32 + info) :: bs) := by
    intro info bs hi
    obtain ⟨hmaj, hinf⟩ := header_byte hm (show info < 32 by omega)
    rw [← ht _ hmaj (by omega)]
    rfl
  unfold head
  split_ifs
  all_goals exact hpeek _ _ (by omega)

theorem datatype_putInt (i : Int64) :
    ∃ t, (t = .unsigned ∨ t = .negative) ∧
      ∀ rest, datatype (putInt i ++ rest) = .ok (t, putInt i ++ rest) := by
  unfold putInt
  split_ifs
  · refine ⟨.unsigned, Or.inl rfl, datatype_head (by omega) fun b hmaj hinf => ?_⟩
    unfold datatype.datatypeOf
    split_ifs <;> first | rfl | omega
  · refine ⟨.negative, Or.inr rfl, datatype_head (by omega) fun b hmaj hinf => ?_⟩
    unfold datatype.datatypeOf
    split_ifs <;> first | rfl | omega

theorem datatype_putStr (s : String) (rest : Bytes) :
    datatype (putStr s ++ rest) = .ok (.text, putStr s ++ rest) := by
  unfold putStr
  rw [append_assoc]
  refine datatype_head (by omega) (fun b hmaj hinf => ?_) _
  unfold datatype.datatypeOf
  split_ifs <;> first | rfl | omega

theorem datatype_putBytes (bs rest : Bytes) :
    datatype (putBytes bs ++ rest) = .ok (.bytes, putBytes bs ++ rest) := by
  unfold putBytes
  rw [append_assoc]
  refine datatype_head (by omega) (fun b hmaj hinf => ?_) _
  unfold datatype.datatypeOf
  split_ifs <;> first | rfl | omega

end

/-! ## 5. Words that fit a buffer

A header announces a length below `2 ^ 64`. A word that is itself shorter than that announces only
such lengths, so the one bound on the whole word stands for the bounds on its fields. -/

/-- `p` reads `bs` back as `a`, if `bs` is short enough to be addressed. -/
def ReadsFit {α : Type} (p : Decoder α) (bs : Bytes) (a : α) : Prop :=
  bs.length < 2 ^ 64 → Reads p bs a

theorem Reads.fit (h : Reads p u a) : ReadsFit p u a := fun _ => h

theorem ReadsFit.bind (h : ReadsFit p u a) (hf : ReadsFit (f a) v b) :
    ReadsFit (p >>= f) (u ++ v) b := by
  intro hlen
  rw [length_append] at hlen
  exact (h (by omega)).bind (hf (by omega))

theorem ReadsFit.bind_pure (h : ReadsFit p u a) (hf : f a = Pure.pure b) : ReadsFit (p >>= f) u b :=
  fun hlen => (h hlen).bind_pure hf

theorem ReadsFit.map (f : α → β) (h : ReadsFit p u a) : ReadsFit (f <$> p) u (f a) :=
  fun hlen => (h hlen).map f

theorem ReadsFit.peek {x : α} (h : ∀ rest, p (u ++ rest) = .ok (x, u ++ rest))
    (hf : ReadsFit (f x) u b) : ReadsFit (p >>= f) u b :=
  fun hlen => Reads.peek h (hf hlen)

theorem ReadsFit.agree {b : α} (ha : ReadsFit p u a) (hb : ReadsFit p u b)
    (hlen : u.length < 2 ^ 64) : a = b := by
  have hread := ha hlen []
  rw [hb hlen []] at hread
  simp only [Except.ok.injEq, Prod.mk.injEq, and_true] at hread
  exact hread.symm

theorem head_ne_nil (major n : Nat) : head major n ≠ [] := by
  unfold head
  split_ifs <;> exact cons_ne_nil _ _

theorem putStr_ne_nil (s : String) : putStr s ≠ [] := by
  intro h
  exact head_ne_nil _ _ (append_eq_nil_iff.mp h).1

theorem fit_getBytes (bs : Bytes) : ReadsFit getBytes (putBytes bs) bs := by
  intro hlen
  unfold putBytes at hlen
  rw [length_append] at hlen
  exact reads_getBytes (by omega)

theorem fit_getStr (s : String) : ReadsFit getStr (putStr s) s := by
  intro hlen
  unfold putStr at hlen
  rw [length_append] at hlen
  exact reads_getStr (by omega)

theorem length_lt_of_putList
    (hne : ∀ x ∈ xs, put x ≠ []) (hlen : (putList put xs).length < 2 ^ 64) : xs.length < 2 ^ 64 := by
  have hcount : xs.length ≤ (xs.flatMap put).length := by
    clear hlen
    induction xs with
    | nil => exact Nat.zero_le _
    | cons x xs ih =>
      have htail := ih (forall_mem_cons.mp hne).2
      have hpos := length_pos_of_ne_nil (hne x mem_cons_self)
      rw [flatMap_cons, length_append, length_cons]
      omega
  unfold putList at hlen
  rw [length_append] at hlen
  omega

theorem fit_of_mem_flatMap {x : α} (hx : x ∈ xs)
    (hlen : (xs.flatMap put).length < 2 ^ 64) : (put x).length < 2 ^ 64 := by
  have hle : (put x).length ≤ (xs.flatMap put).length := by
    obtain ⟨s, t, rfl⟩ := append_of_mem hx
    simp only [flatMap_append, flatMap_cons, length_append]
    omega
  omega

theorem ReadsFit.items
    (h : ∀ x ∈ xs, ReadsFit get (put x) x) : ReadsFit (getItems get xs.length) (xs.flatMap put) xs :=
  fun hlen => reads_getItems fun x hx => h x hx (fit_of_mem_flatMap hx hlen)

/-! ## 6. Readers that judge

A reader that refuses some of the words the writer writes: which ones is told by a condition on the
value, and the conditions of the parts add up to the condition of the whole. -/

/-- `p` reads `bs` back as `a` if `C` holds and refuses it otherwise, whatever follows. -/
def Judges {α : Type} (p : Decoder α) (bs : Bytes) (a : α) (C : Prop) : Prop :=
  bs.length < 2 ^ 64 → (C → Reads p bs a) ∧ ∀ rest x, p (bs ++ rest) = .ok x → C

section Judging

variable {C D : Prop}

theorem ReadsFit.judges (h : ReadsFit p u a) : Judges p u a True :=
  fun hlen => ⟨fun _ => h hlen, fun _ _ _ => trivial⟩

theorem Judges.iff (h : Judges p u a C) (hiff : C ↔ D) : Judges p u a D :=
  fun hlen => ⟨fun hD => (h hlen).1 (hiff.mpr hD), fun rest x hx => hiff.mp ((h hlen).2 rest x hx)⟩

theorem Judges.bind (h : Judges p u a C) (hf : Judges (f a) v b D) :
    Judges (p >>= f) (u ++ v) b (C ∧ D) := by
  intro hlen
  rw [length_append] at hlen
  obtain ⟨hread, hrefuse⟩ := h (by omega)
  obtain ⟨hread', hrefuse'⟩ := hf (by omega)
  refine ⟨fun hCD => (hread hCD.1).bind (hread' hCD.2), ?_⟩
  rintro rest ⟨b', rest'⟩ hx
  rw [append_assoc] at hx
  obtain ⟨a', mid, ha, hb⟩ := bind_eq_ok.mp hx
  have hC := hrefuse _ _ ha
  rw [hread hC (v ++ rest)] at ha
  cases ha
  exact ⟨hC, hrefuse' _ _ hb⟩

theorem ReadsFit.andThen (h : ReadsFit p u a) (hf : Judges (f a) v b D) :
    Judges (p >>= f) (u ++ v) b D :=
  (h.judges.bind hf).iff (by simp)

theorem Judges.bind_pure (h : Judges p u a C) (hf : f a = Pure.pure b) : Judges (p >>= f) u b C := by
  have hstep := h.bind (hf ▸ (Reads.pure b).fit.judges)
  rw [append_nil] at hstep
  exact hstep.iff (by simp)

theorem Judges.bind_nil (h : Judges p u a C) (hf : Judges (f a) [] b D) :
    Judges (p >>= f) u b (C ∧ D) := by
  have hstep := h.bind hf
  rwa [append_nil] at hstep

theorem Judges.nil_bind (h : Judges p [] a C) (hf : Judges (f a) v b D) :
    Judges (p >>= f) v b (C ∧ D) :=
  h.bind hf

theorem Judges.check {c : Prop} [Decidable c] {e : Error} (h : Judges p u a C) :
    Judges (if c then fail e else p) u a (¬ c ∧ C) := by
  by_cases hc : c
  · rw [if_pos hc]
    exact fun _ => ⟨fun hC => absurd hc hC.1, nofun⟩
  · rw [if_neg hc]
    exact h.iff (by simp [hc])

theorem Judges.items
    (h : ∀ x ∈ xs, Judges get (put x) x (P x)) :
    Judges (getItems get xs.length) (xs.flatMap put) xs (∀ x ∈ xs, P x) := by
  induction xs with
  | nil => exact (Reads.pure []).fit.judges.iff (by simp)
  | cons x xs ih =>
    have htail := ih (forall_mem_cons.mp h).2
    have hcons : Judges (getItems get xs.length >>= fun ys => pure (x :: ys)) _ (x :: xs) _ :=
      htail.bind_pure rfl
    rw [flatMap_cons]
    exact ((h x mem_cons_self).bind hcons).iff (by simp)

end Judging

/-! ## 7. Ascending items -/

section Ascending

variable {κ : Type} [LinearOrder κ]

/-- `n` items, each read against the key of the one before it. -/
def getAscending (key : α → κ) (read : Option κ → Decoder α) : Option κ → Nat → Decoder (List α)
  | _, 0 => pure []
  | prev, n + 1 => do
    let x ← read prev
    let xs ← getAscending key read (some (key x)) n
    pure (x :: xs)

theorem Judges.ascending {key : α → κ} {read : Option κ → Decoder α} (prev : Option κ)
    (h : ∀ prev, ∀ x ∈ xs, Judges (read prev) (put x) x ((∀ k ∈ prev, k < key x) ∧ P x)) :
    Judges (getAscending key read prev xs.length) (xs.flatMap put) xs
      ((prev.toList ++ xs.map key).IsChain (· < ·) ∧ ∀ x ∈ xs, P x) := by
  induction xs generalizing prev with
  | nil =>
    refine (Reads.pure []).fit.judges.iff ?_
    cases prev <;> simp
  | cons x xs ih =>
    have htail := ih (some (key x)) fun prev y hy => h prev y (mem_cons_of_mem x hy)
    have hcons : Judges (getAscending key read (some (key x)) xs.length >>= fun ys =>
        pure (x :: ys)) _ (x :: xs) _ := htail.bind_pure rfl
    rw [flatMap_cons]
    refine ((h prev x mem_cons_self).bind hcons).iff ?_
    cases prev with
    | none => simp; tauto
    | some k => simp; tauto

end Ascending

/-! ## 8. Prefix codes -/

/-- No word of the code starts another one: from two texts that begin with a word each, the words
    agree and so does what follows. `P` bounds the values that are coded at all. -/
def PrefixInj {α : Type} (P : α → Prop) (put : α → Bytes) : Prop :=
  ∀ a b, P a → P b → ∀ r r', put a ++ r = put b ++ r' → a = b ∧ r = r'

theorem Reads.prefixInj
    (h : ∀ a, P a → Reads get (put a) a) : PrefixInj P put := by
  intro a b ha hb r r' heq
  have hread : get (put a ++ r) = .ok (a, r) := h a ha r
  rw [heq, h b hb r'] at hread
  simp only [Except.ok.injEq, Prod.mk.injEq] at hread
  exact ⟨hread.1.symm, hread.2.symm⟩

theorem PrefixInj.injective (h : PrefixInj P put)
    {a b : α} (ha : P a) (hb : P b) (heq : put a = put b) : a = b :=
  (h a b ha hb [] [] (by rw [heq])).1

theorem prefixInj_putArray : PrefixInj (· < 2 ^ 64) putArray := by
  intro a b ha hb r r' heq
  have hread : getArray (putArray a ++ r) = .ok (some a, r) := reads_getArray ha r
  rw [heq, reads_getArray hb r'] at hread
  simp only [Except.ok.injEq, Prod.mk.injEq, Option.some.injEq] at hread
  exact ⟨hread.1.symm, hread.2.symm⟩

theorem prefixInj_flatMap (h : PrefixInj P put)
    {xs ys : List α} (hlen : xs.length = ys.length) (hx : ∀ x ∈ xs, P x) (hy : ∀ y ∈ ys, P y)
    (heq : xs.flatMap put ++ r = ys.flatMap put ++ r') : xs = ys ∧ r = r' := by
  induction xs generalizing ys with
  | nil =>
    have : ys = [] := length_eq_zero_iff.mp hlen.symm
    subst this
    exact ⟨rfl, heq⟩
  | cons x xs ih =>
    cases ys with
    | nil => cases hlen
    | cons y ys =>
      rw [flatMap_cons, flatMap_cons, append_assoc, append_assoc] at heq
      obtain ⟨rfl, htail⟩ := h x y (hx x mem_cons_self) (hy y mem_cons_self) _ _ heq
      obtain ⟨rfl, hr⟩ := ih (Nat.succ.inj hlen) (forall_mem_cons.mp hx).2
        (forall_mem_cons.mp hy).2 htail
      exact ⟨rfl, hr⟩

theorem PrefixInj.list (h : PrefixInj P put) :
    PrefixInj (fun xs => xs.length < 2 ^ 64 ∧ ∀ x ∈ xs, P x) (putList put) := by
  intro xs ys hxs hys r r' heq
  unfold putList at heq
  rw [append_assoc, append_assoc] at heq
  obtain ⟨hlen, htail⟩ := prefixInj_putArray _ _ hxs.1 hys.1 _ _ heq
  exact prefixInj_flatMap h hlen hxs.2 hys.2 htail

end RagRat.Lib.Cbor
