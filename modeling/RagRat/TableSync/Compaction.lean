/-
  File:      RagRat/TableSync/Compaction.lean
  Subject:   How many of its own oldest pins compaction carries to the tail of a chain
             (`transport.rs`).

  * `RestatePacker` -- the batches a sequence of restated rows needs, counted without building them;
  * `pricePin` -- what moving one more pin costs; `cost_le_of_pricePin` -- never less;
  * `pinsWorthReauthoring` -- the pins to carry, weighed against the entries they free;
  * `weighPins_stop` -- the weighing tells the best runs among those up to the pin it stops at.
-/
import Mathlib.Data.Nat.Find
import RagRat.TableSync.Retention
import RagRat.TableSync.RowCodec

namespace RagRat.TableSync

open List
open Nat Option

/-! ## 1. Packing restatements -/

/-- A packer of restatements, by lengths alone. -/
structure RestatePacker where
  base : Nat
  payloadMax : Nat
  batches : Nat
  batchLen : Nat
  batchBytes : Nat

namespace RestatePacker

/-- Where the packer puts an element: into the batch being filled, into a new one, or nowhere. -/
inductive Placed where
  | sameBatch | newBatch | unfit
  deriving DecidableEq

/-- A packer whose batches are `empty` with their element array filled. -/
def around (empty : RowOp) (payloadMax : Nat) : RestatePacker :=
  ⟨empty.encode.length - 1, payloadMax, 0, 0, 0⟩

/-- The bytes of an array's header. -/
def arrayHeader (n : Nat) : Nat := if n < 24 then 1 else if n < 256 then 2 else 3

/-- One item more: in the batch, in a new one, or in none. -/
def pushLen (p : RestatePacker) (len : Nat) : RestatePacker × Placed :=
  if p.payloadMax < p.base + arrayHeader 1 + len then (p, .unfit)
  else if p.batchLen = 0 then
    ({ p with batches := p.batches + 1, batchLen := 1, batchBytes := p.batchBytes + len }, .newBatch)
  else if p.payloadMax < p.base + arrayHeader (p.batchLen + 1) + p.batchBytes + len ∨
      maxRowOpElements ≤ p.batchLen then
    ({ p with batches := p.batches + 1, batchLen := 1, batchBytes := len }, .newBatch)
  else ({ p with batchLen := p.batchLen + 1, batchBytes := p.batchBytes + len }, .sameBatch)

theorem batches_le_pushLen (p : RestatePacker) (len : Nat) : p.batches ≤ (p.pushLen len).1.batches := by
  unfold pushLen
  split_ifs
  · exact le_rfl
  · exact le_succ _
  · exact le_succ _
  · exact le_rfl

end RestatePacker

/-- The packers of the tables met so far. -/
abbrev Packers := List (String × RestatePacker)

/-- Push into the packer of the table of `empty`, around which a first one is made. -/
def Packers.push (empty : RowOp) (payloadMax len : Nat) : Packers → Packers × RestatePacker.Placed
  | [] =>
    let (p, placed) := (RestatePacker.around empty payloadMax).pushLen len
    ([(empty.table, p)], placed)
  | (table, p) :: rest =>
    if table = empty.table then
      let (p, placed) := p.pushLen len
      ((table, p) :: rest, placed)
    else
      let (rest, placed) := Packers.push empty payloadMax len rest
      ((table, p) :: rest, placed)

open Packers

/-- The batches of all tables. -/
def Packers.batches (ps : Packers) : Nat := (ps.map (·.2.batches)).sum

theorem Packers.batches_le_push (empty : RowOp) (payloadMax len : Nat) (ps : Packers) :
    ps.batches ≤ (push empty payloadMax len ps).1.batches := by
  induction ps with
  | nil => exact zero_le _
  | cons entry rest ih =>
    obtain ⟨table, p⟩ := entry
    unfold push
    split_ifs
    · exact Nat.add_le_add_right (p.batches_le_pushLen len) _
    · exact Nat.add_le_add_left ih _

/-! ## 2. The price of the pins -/

/-- How one of the chain's own live rows would move. -/
inductive OwnPinMove where
  | upsert
  | restate (row : StatedRow)
  | stuck

/-- What the pins priced so far would author. -/
structure Pricing where
  live : Nat
  packers : Packers
  rowPackers : Packers

/-- Nothing priced. -/
def Pricing.start : Pricing := ⟨0, [], []⟩

/-- The entries it takes to say it all again. -/
def Pricing.cost (s : Pricing) : Nat := s.live + s.packers.batches + s.rowPackers.batches

/-- The tables, the room of one payload, and the move allowed for the row of a live pin. -/
structure Pricer where
  specs : List TableSpec
  payloadMax : Nat
  ownPinMove : TableSpec → String → OwnPinMove

namespace Pricer

variable (q : Pricer)

/-- The price of one delete. -/
def priceStatement (s : Pricing) (row : StatedTombstone) : Option Pricing := do
  let spec ← q.specs.find? (·.name = row.tableName)
  let pk ← (rowPkValues row.rowPk).toOption
  let (packers, placed) := push (.restate spec.name spec.specVersion []) q.payloadMax
    (encodeDelete ⟨pk, row.identity.device, row.identity.lamport⟩).length s.packers
  if placed = .unfit then none else some { s with packers := packers }

/-- The price with one more pin; nothing if the run ends at it. -/
def pricePin (s : Pricing) (pin : Pin) : Option Pricing :=
  match pin.kind with
  | .liveRow tableName rowPk => do
    let spec ← q.specs.find? (·.name = tableName)
    match q.ownPinMove spec rowPk with
    | .upsert => some { s with live := s.live + 1 }
    | .stuck => none
    | .restate row =>
      let (rowPackers, placed) := push (.restateRows spec.name spec.specVersion [])
        q.payloadMax (encodeStatedRow row).length s.rowPackers
      -- too large to restate alone: it moves as an upsert
      some { s with
        rowPackers := rowPackers
        live := if placed = .unfit then s.live + 1 else s.live }
  | .statements rows => rows.foldlM q.priceStatement s

/-- The pins from `index` on, weighed until the price passes the cap or half of what can be freed.
    -/
def weighPins (lamports : List Nat) (target cap : Nat) :
    List Pin → Nat → Pricing → Nat × Nat → Nat × Nat
  | [], _, _, best => best
  | pin :: rest, index, s, (worth, withinCap) =>
    match q.pricePin s pin with
    | none => (worth, withinCap)
    | some s =>
      let k := index + 1
      let bound := (rest.head?.map (·.lamport)).getD target
      let best :=
        (if 2 * s.cost ≤ lamports.countP (· < bound) then k else worth,
          if s.cost ≤ cap then k else withinCap)
      if cap < s.cost ∨ lamports.length < 2 * s.cost then best
      else weighPins lamports target cap rest k s best

/-- How many of the oldest pins are worth carrying forward; `chain` are the stored lamports. -/
def pinsWorthReauthoring (chain : List Nat) (pins : List Pin) (target cap : Nat) : Nat :=
  let (worth, withinCap) :=
    q.weighPins (chain.filter (· < target)) target cap pins 0 .start (0, 0)
  min worth withinCap

/-! ## 3. What the weighing finds -/

/-- The price of the first `k` pins. -/
def pricing (pins : List Pin) (k : Nat) : Option Pricing := (pins.take k).foldlM q.pricePin .start

/-- The entries that moving the first `k` pins authors. -/
def cost (pins : List Pin) (k : Nat) : Nat := (q.pricing pins k).elim 0 Pricing.cost

section

variable (lamports : List Nat) (pins : List Pin) (target k : Nat)

/-- The entries below the next pin, or below the target: what moving the first `k` pins frees. -/
def freed : Nat :=
  lamports.countP (· < (pins[k]?.map (·.lamport)).getD target)

/-- The first `k` pins free twice the entries they author. -/
def Pays : Prop :=
  2 * q.cost pins k ≤ freed lamports pins target k

end

instance (lamports : List Nat) (pins : List Pin) (target : Nat) :
    DecidablePred (q.Pays lamports pins target) := fun _ => inferInstanceAs (Decidable (_ ≤ _))

variable {q} {lamports : List Nat} {pins : List Pin} {target cap : Nat} {s s' : Pricing}

theorem cost_le_of_foldlM {α : Type} {step : Pricing → α → Option Pricing}
    (hstep : ∀ {s s' a}, step s a = some s' → s.cost ≤ s'.cost) {l : List α}
    (h : l.foldlM step s = some s') : s.cost ≤ s'.cost := by
  induction l generalizing s with
  | nil =>
    cases h
    exact le_rfl
  | cons a l ih =>
    obtain ⟨s₁, ha, h⟩ := bind_eq_some_iff.mp h
    exact (hstep ha).trans (ih h)

theorem cost_le_of_priceStatement {row : StatedTombstone}
    (h : q.priceStatement s row = some s') : s.cost ≤ s'.cost := by
  unfold priceStatement at h
  obtain ⟨spec, -, h⟩ := bind_eq_some_iff.mp h
  obtain ⟨pk, -, h⟩ := bind_eq_some_iff.mp h
  simp only [ite_none_left_eq_some, some.injEq] at h
  obtain ⟨-, rfl⟩ := h
  exact Nat.add_le_add_right (Nat.add_le_add_left (Packers.batches_le_push _ _ _ _) _) _

theorem cost_le_of_pricePin {pin : Pin} (h : q.pricePin s pin = some s') : s.cost ≤ s'.cost := by
  unfold pricePin at h
  split at h
  · obtain ⟨spec, -, h⟩ := bind_eq_some_iff.mp h
    split at h
    · cases h
      simp only [Pricing.cost]
      omega
    · cases h
    · rename_i row _
      cases h
      have := batches_le_push (.restateRows spec.name spec.specVersion []) q.payloadMax
        (encodeStatedRow row).length s.rowPackers
      simp only [Pricing.cost]
      split_ifs <;> omega
  · exact cost_le_of_foldlM cost_le_of_priceStatement h

section Priced

variable (hpriced : (pins.foldlM q.pricePin .start).isSome)

include hpriced

theorem exists_pricing (k : Nat) : ∃ s, q.pricing pins k = some s := by
  obtain ⟨s, hs⟩ := isSome_iff_exists.mp hpriced
  rw [← take_append_drop k pins, foldlM_append] at hs
  obtain ⟨s₁, hs₁, -⟩ := bind_eq_some_iff.mp hs
  exact ⟨s₁, hs₁⟩

theorem cost_mono {j k : Nat} (h : j ≤ k) : q.cost pins j ≤ q.cost pins k := by
  obtain ⟨s, hs⟩ := exists_pricing hpriced j
  obtain ⟨s', hs'⟩ := exists_pricing hpriced k
  unfold cost
  rw [hs, hs']
  unfold pricing at hs hs'
  rw [← take_append_drop j (pins.take k), foldlM_append, take_take, min_eq_left h] at hs'
  obtain ⟨s₁, hs₁, h'⟩ := bind_eq_some_iff.mp hs'
  cases hs.symm.trans hs₁
  exact cost_le_of_foldlM cost_le_of_pricePin h'

/-- **The weighing tells the best runs up to the pin it stops at**, which is the last one, one past
the cap, or one past half of what can be freed. -/
theorem weighPins_stop (lamports : List Nat) (target cap : Nat) {rest : List Pin} {index : Nat} (hle : index ≤ pins.length)
    (hrest : pins.drop index = rest) (hs : q.pricing pins index = some s) :
    ∃ stop, index ≤ stop ∧ stop ≤ pins.length ∧
      q.weighPins lamports target cap rest index s
          (findGreatest (q.Pays lamports pins target) index,
            findGreatest (q.cost pins · ≤ cap) index) =
        (findGreatest (q.Pays lamports pins target) stop, findGreatest (q.cost pins · ≤ cap) stop) ∧
      (∀ k, index < k → k < stop → q.cost pins k ≤ cap) ∧
      (stop = pins.length ∨ cap < q.cost pins stop ∨ lamports.length < 2 * q.cost pins stop) := by
  induction rest generalizing index s with
  | nil =>
    have hlen := drop_eq_nil_iff.mp hrest
    exact ⟨index, le_rfl, hle, rfl, fun k hk hk' => by omega, .inl (by omega)⟩
  | cons pin rest ih =>
    have hpin : pins[index]? = some pin := by
      rw [← List.head?_drop, hrest]
      rfl
    have hlt : index < pins.length := (List.getElem?_eq_some_iff.mp hpin).1
    have hrest' : pins.drop (index + 1) = rest := by
      rw [← List.tail_drop, hrest]
      rfl
    obtain ⟨s', hs'⟩ := exists_pricing hpriced (index + 1)
    have hstep : q.pricePin s pin = some s' := by
      unfold pricing at hs hs'
      rw [take_add_one, hpin, foldlM_append, hs] at hs'
      simpa using hs'
    have hcost : q.cost pins (index + 1) = s'.cost := by
      unfold cost
      rw [hs']
      rfl
    have hfreed : freed lamports pins target (index + 1) =
        lamports.countP (· < (rest.head?.map (·.lamport)).getD target) := by
      unfold freed
      rw [← List.head?_drop, hrest']
    unfold weighPins
    simp only [hstep]
    have hbest : (findGreatest (q.Pays lamports pins target) (index + 1),
        findGreatest (q.cost pins · ≤ cap) (index + 1)) =
        (if 2 * s'.cost ≤ lamports.countP (· < (rest.head?.map (·.lamport)).getD target)
          then index + 1 else findGreatest (q.Pays lamports pins target) index,
        if s'.cost ≤ cap then index + 1 else findGreatest (q.cost pins · ≤ cap) index) := by
      rw [findGreatest_succ, findGreatest_succ]
      simp only [Pays, hcost, hfreed]
    rw [← hbest]
    split_ifs with hstop
    · rw [← hcost] at hstop
      exact ⟨index + 1, le_succ _, hlt, rfl, fun k hk hk' => by omega, .inr hstop⟩
    · obtain ⟨stop, hge, hstop', heq, hwithin, hend⟩ := ih hlt hrest' hs'
      refine ⟨stop, by omega, hstop', heq, fun k hk hk' => ?_, hend⟩
      rcases lt_or_ge (index + 1) k with hgt | hgt
      · exact hwithin k hgt hk'
      · obtain rfl : k = index + 1 := by omega
        omega

end Priced

section Stop

variable {P Q : Nat → Prop} [DecidablePred P] [DecidablePred Q] {stop n : Nat}

theorem min_findGreatest_eq_iff (hle : stop ≤ n) (hP : P 0) (hQ : ∀ k < stop, Q k) (hQ₀ : Q 0)
    (hend : stop = n ∨ (∀ k ≥ stop, ¬ Q k) ∨ ∀ k ≥ stop, ¬ P k) :
    min (findGreatest P stop) (findGreatest Q stop) =
        min (findGreatest P n) (findGreatest Q n) ↔
      P (findGreatest Q n) ∨ P (findGreatest Q n + 1) ∨ ∀ k ≤ n, P k → k ≤ findGreatest Q n + 1 := by
  have hw' := findGreatest_spec (zero_le stop) hP
  have hw := findGreatest_spec (zero_le n) hP
  have hmono := findGreatest_mono_right P hle
  have hmonoQ := findGreatest_mono_right Q hle
  have hwle : findGreatest P n ≤ stop → findGreatest P n ≤ findGreatest P stop :=
    fun h => le_findGreatest h hw
  have hstop : stop ≤ Nat.findGreatest Q stop + 1 := by
    rcases Nat.eq_zero_or_pos stop with rfl | hpos
    · exact Nat.zero_le _
    · have := le_findGreatest (sub_le stop 1) (hQ (stop - 1) (by omega))
      omega
  have hbound : ∀ k ≤ n, P k → k ≤ findGreatest P n := fun k hk hPk => le_findGreatest hk hPk
  have hle' := findGreatest_le (P := P) stop
  rcases hend with rfl | hend | hend
  · refine iff_of_true rfl (.inr (.inr fun k hk _ => by omega))
  · -- the second kind ends at the stop
    have hc : findGreatest Q n < stop := by
      by_contra hge
      exact hend _ (not_lt.mp hge) (findGreatest_spec (zero_le n) hQ₀)
    constructor
    · intro h
      by_cases hin : findGreatest P n ≤ stop
      · exact .inr (.inr fun k hk hPk => by have := hbound k hk hPk; omega)
      rcases (by omega : findGreatest P stop = findGreatest Q n ∨
        findGreatest P stop = findGreatest Q n + 1) with heq | heq
      · exact .inl (heq ▸ hw')
      · exact .inr (.inl (heq ▸ hw'))
    · rintro (h | h | h)
      · have := le_findGreatest (n := stop) (by omega) h
        omega
      · have := le_findGreatest (n := stop) (by omega) h
        omega
      · have := h _ (findGreatest_le n) hw
        omega
  · have hlt : findGreatest P n < stop := by
      by_contra hge
      exact hend _ (not_lt.mp hge) hw
    refine iff_of_true (by omega) (.inr (.inr fun k hk hPk => ?_))
    have := hbound k hk hPk
    omega

end Stop

/-- **What is carried is the shorter of two runs**, the longest that pays and the longest within the
cap, exactly when the run within the cap pays, or does with one pin more, or no longer one does: the
weighing stops at the first pin past the cap. -/
theorem pinsWorthReauthoring_eq_iff {chain : List Nat}
    (hpriced : (pins.foldlM q.pricePin .start).isSome) :
    let pays := q.Pays (chain.filter (· < target)) pins target
    let worth := findGreatest pays pins.length
    let withinCap := findGreatest (q.cost pins · ≤ cap) pins.length
    q.pinsWorthReauthoring chain pins target cap = min worth withinCap ↔
      pays withinCap ∨ pays (withinCap + 1) ∨ ∀ k ≤ pins.length, pays k → k ≤ withinCap + 1 := by
  intro pays worth withinCap
  obtain ⟨stop, -, hstop, heq, hwithin, hend⟩ :=
    weighPins_stop hpriced (chain.filter (· < target)) target cap (zero_le _) drop_zero rfl
  have hzero : q.cost pins 0 ≤ cap := zero_le _
  unfold pinsWorthReauthoring
  rw [show q.weighPins (chain.filter (· < target)) target cap pins 0 .start (0, 0) = _ from heq]
  refine min_findGreatest_eq_iff hstop (Nat.zero_le _) (fun k hk => ?_) hzero ?_
  · rcases Nat.eq_zero_or_pos k with rfl | hpos
    · exact hzero
    · exact hwithin k hpos hk
  · refine hend.imp_right (Or.imp (fun hcap k hk => ?_) fun hhalf k hk => ?_)
    · exact not_le.mpr (hcap.trans_le (cost_mono hpriced hk))
    · refine not_le.mpr (lt_of_le_of_lt countP_le_length (hhalf.trans_le ?_))
      exact mul_le_mul_left 2 (cost_mono hpriced hk)

/-- Sixty-six cold rows under a hot one, which owns the last of 266 entries. -/
def coldPins : List Pin := (range 66).map fun n => ⟨n, .liveRow "cold" (toString n)⟩

def coldTable : TableSpec := ⟨"cold", 1, [], [], [], none, .nil, nofun⟩

def coldPricer : Pricer := ⟨[coldTable], 60000, fun _ _ => .upsert⟩

theorem pinsWorthReauthoring_stalls :
    coldPricer.pinsWorthReauthoring (range 266) coldPins 166 64 = 0 ∧
      findGreatest (coldPricer.Pays ((range 266).filter (· < 166)) coldPins 166) 66 = 66 ∧
      findGreatest (coldPricer.cost coldPins · ≤ 64) 66 = 64 := by
  decide +kernel

theorem pinsWorthReauthoring_pays : (coldPins.foldlM coldPricer.pricePin .start).isSome ∧
    coldPricer.pinsWorthReauthoring (range 266) coldPins 166 66 = 66 := by
  refine ⟨by decide +kernel, (pinsWorthReauthoring_eq_iff (by decide +kernel)).mpr ?_ |>.trans ?_⟩
  · decide +kernel
  · decide +kernel

end Pricer

end RagRat.TableSync
