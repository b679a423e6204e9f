/-
  File:      RagRat/Lib/Lww.lean
  Subject:   A LAST-WRITER-WINS CELL WITH A TOMBSTONE, over any linear order of clocks.

  A write takes the cell when its clock is above both the stored clock and the tombstone; a delete
  empties the cell unless the stored clock is above it, and raises the tombstone either way.

  * `run_settled` -- what a run leaves, told from its events: the tombstone is the greatest delete, and
    the value is a greatest write's exactly when that write is above it;
  * `run_eq_of_mem_iff` -- so two runs over the same SET of events end in the same cell, as long as
    one clock never carries two values;
  * `run_live_of_carried` -- a sub-run keeps the live value as soon as it holds the event that
    decides it.
-/
import Mathlib.Data.List.Induction
import Mathlib.Order.WithBot

namespace RagRat.Lib.Lww

variable {C V : Type} [LinearOrder C]

/-- A write or a delete, with its clock. -/
inductive Event (C V : Type) where
  | write (c : C) (v : V)
  | delete (c : C)

/-- The tombstone, and what is live. -/
structure Cell (C V : Type) where
  tomb : WithBot C
  live : Option (C × V)

namespace Cell

/-- Before any event. -/
def empty : Cell C V := ⟨⊥, none⟩

/-- The clock of the live value, `⊥` when there is none. -/
def clock (s : Cell C V) : WithBot C :=
  match s.live with
  | some (c, _) => c
  | none => ⊥

/-- One event. -/
def step (s : Cell C V) : Event C V → Cell C V
  | .write c v => if s.tomb < c ∧ s.clock < c then { s with live := some (c, v) } else s
  | .delete c => { tomb := s.tomb ⊔ c, live := if (c : WithBot C) < s.clock then s.live else none }

/-- A list of events. -/
def run (es : List (Event C V)) : Cell C V := es.foldl step empty

theorem run_append (es : List (Event C V)) (e : Event C V) : run (es ++ [e]) = (run es).step e := by
  simp [run, List.foldl_append]

end Cell

variable {es es' : List (Event C V)} {s : Cell C V}

/-! ## 1. The greatest write and the greatest delete -/

/-- The clock an event deletes at, if it is a delete. -/
def Event.deleteClock : Event C V → WithBot C
  | .write _ _ => ⊥
  | .delete c => c

/-- The clock an event writes at, if it is a write. -/
def Event.writeClock : Event C V → WithBot C
  | .write c _ => c
  | .delete _ => ⊥

section

variable (f : Event C V → WithBot C)

/-- The greatest value of `f` over a list, `⊥` when there is none. -/
def greatest (es : List (Event C V)) : WithBot C :=
  es.foldl (fun m e => m ⊔ f e) ⊥

theorem greatest_append (es : List (Event C V)) (e : Event C V) :
    greatest f (es ++ [e]) = greatest f es ⊔ f e := by
  simp [greatest, List.foldl_append]

theorem greatest_le_iff (es : List (Event C V)) (b : WithBot C) :
    greatest f es ≤ b ↔ ∀ e ∈ es, f e ≤ b := by
  induction es using List.reverseRecOn with
  | nil => simp [greatest]
  | append_singleton es e ih =>
    rw [greatest_append, sup_le_iff, ih]
    simp only [List.mem_append, List.mem_singleton]
    constructor
    · rintro ⟨hall, he⟩ x (hx | rfl)
      · exact hall x hx
      · exact he
    · intro h
      exact ⟨fun x hx => h x (Or.inl hx), h e (Or.inr rfl)⟩

theorem le_greatest {e : Event C V} (he : e ∈ es) : f e ≤ greatest f es :=
  (greatest_le_iff f es _).mp le_rfl e he

theorem greatest_mem (es : List (Event C V)) : greatest f es = ⊥ ∨ ∃ e ∈ es, f e = greatest f es := by
  induction es using List.reverseRecOn with
  | nil => exact Or.inl rfl
  | append_singleton es e ih =>
    rw [greatest_append]
    rcases le_total (greatest f es) (f e) with hle | hle
    · exact Or.inr ⟨e, by simp, by rw [sup_eq_right.mpr hle]⟩
    · rw [sup_eq_left.mpr hle]
      rcases ih with hbot | ⟨x, hx, hfx⟩
      · exact Or.inl hbot
      · exact Or.inr ⟨x, by simp [hx], hfx⟩

theorem greatest_mono (h : ∀ e ∈ es, e ∈ es') : greatest f es ≤ greatest f es' :=
  (greatest_le_iff f es _).mpr fun e he => le_greatest f (h e he)

end

/-- The clock of the last write. -/
def greatestWrite (es : List (Event C V)) : WithBot C := greatest Event.writeClock es

/-- The clock of the last delete. -/
def greatestDelete (es : List (Event C V)) : WithBot C := greatest Event.deleteClock es

section Greatest

variable (es : List (Event C V)) (c : C) (v : V)

@[simp] theorem greatestWrite_write : greatestWrite (es ++ [.write c v]) = greatestWrite es ⊔ c :=
  greatest_append _ es _

@[simp] theorem greatestWrite_delete : greatestWrite (es ++ [.delete c]) = greatestWrite es :=
  (greatest_append _ es _).trans (sup_eq_left.mpr bot_le)

@[simp] theorem greatestDelete_write : greatestDelete (es ++ [.write c v]) = greatestDelete es :=
  (greatest_append _ es _).trans (sup_eq_left.mpr bot_le)

@[simp] theorem greatestDelete_delete : greatestDelete (es ++ [.delete c]) = greatestDelete es ⊔ c :=
  greatest_append _ es _

end Greatest

theorem greatest_eq_iff {f : Event C V → WithBot C} {c : C} :
    greatest f es = c ↔ (∃ e ∈ es, f e = c) ∧ ∀ e ∈ es, f e ≤ c := by
  constructor
  · intro h
    rcases greatest_mem f es with hbot | ⟨e, he, heq⟩
    · exact absurd (h.symm.trans hbot) WithBot.coe_ne_bot
    · exact ⟨⟨e, he, heq.trans h⟩, fun e he => (le_greatest f he).trans h.le⟩
  · rintro ⟨⟨e, he, heq⟩, hmax⟩
    exact le_antisymm ((greatest_le_iff f es _).mpr hmax) (heq ▸ le_greatest f he)

theorem greatestDelete_eq_iff {d : C} :
    greatestDelete es = d ↔ Event.delete d ∈ es ∧ ∀ d', Event.delete d' ∈ es → d' ≤ d := by
  refine greatest_eq_iff.trans (and_congr ⟨?_, fun h => ⟨_, h, rfl⟩⟩ ⟨fun h d' hd' => ?_, fun h e he => ?_⟩)
  · rintro ⟨e | e, he, heq⟩
    · exact absurd heq.symm WithBot.coe_ne_bot
    · exact WithBot.coe_injective heq ▸ he
  · exact WithBot.coe_le_coe.mp (h _ hd')
  · cases e with
    | write => exact bot_le
    | delete d' => exact WithBot.coe_le_coe.mpr (h d' he)

theorem greatestWrite_eq_iff {c : C} : greatestWrite es = c ↔
    (∃ v, Event.write c v ∈ es) ∧ ∀ c' v, Event.write c' v ∈ es → c' ≤ c := by
  refine greatest_eq_iff.trans
    (and_congr ⟨?_, fun ⟨v, h⟩ => ⟨_, h, rfl⟩⟩ ⟨fun h c' v hw => ?_, fun h e he => ?_⟩)
  · rintro ⟨⟨c', v⟩ | e, he, heq⟩
    · exact ⟨v, WithBot.coe_injective heq ▸ he⟩
    · exact absurd heq.symm WithBot.coe_ne_bot
  · exact WithBot.coe_le_coe.mp (h _ hw)
  · cases e with
    | write c' v => exact WithBot.coe_le_coe.mpr (h c' v he)
    | delete => exact bot_le

/-! ## 2. What a run leaves behind -/

/-- The cell `s` is what the events `es` amount to. -/
structure Settled (es : List (Event C V)) (s : Cell C V) : Prop where
  tomb : s.tomb = greatestDelete es
  /-- the live value is a greatest write's, above every delete -/
  live : ∀ c v, s.live = some (c, v) →
    Event.write c v ∈ es ∧ greatestWrite es = c ∧ greatestDelete es < c
  /-- an empty cell has no write above every delete -/
  dead : s.live = none → greatestWrite es ≤ greatestDelete es

theorem Settled.write_lost (h : Settled es s) {c : C} {v : V} (hc : ¬ (s.tomb < c ∧ s.clock < c)) :
    Settled (es ++ [.write c v]) s where
  tomb := by simp [h.tomb]
  live c' v' hl := by
    obtain ⟨hmem, hw, hd⟩ := h.live c' v' hl
    have hclock : s.clock = c' := by simp [Cell.clock, hl]
    have hcc : (c : WithBot C) ≤ c' := by
      rw [h.tomb, hclock] at hc
      rcases not_and_or.mp hc with h1 | h1
      · exact (not_lt.mp h1).trans hd.le
      · exact not_lt.mp h1
    refine ⟨by simp [hmem], ?_, by simpa using hd⟩
    rw [greatestWrite_write, hw]
    exact sup_eq_left.mpr hcc
  dead hl := by
    have hclock : s.clock = ⊥ := by simp [Cell.clock, hl]
    have hcd : (c : WithBot C) ≤ greatestDelete es := by
      rw [h.tomb, hclock] at hc
      simpa using hc
    rw [greatestWrite_write, greatestDelete_write]
    exact sup_le (h.dead hl) hcd

theorem Settled.write_won (h : Settled es s) {c : C} {v : V} (hc : s.tomb < c ∧ s.clock < c) :
    Settled (es ++ [.write c v]) { s with live := some (c, v) } where
  tomb := by simp [h.tomb]
  live c' v' hl := by
    simp only [Option.some.injEq, Prod.mk.injEq] at hl
    obtain ⟨rfl, rfl⟩ := hl
    have hd : greatestDelete es < c := h.tomb ▸ hc.1
    have hw : greatestWrite es ≤ c := by
      cases hl : s.live with
      | none => exact (h.dead hl).trans hd.le
      | some cv =>
        have := (h.live cv.1 cv.2 hl).2.1
        have hclock : s.clock = cv.1 := by simp [Cell.clock, hl]
        rw [this, ← hclock]
        exact hc.2.le
    refine ⟨by simp, ?_, by simpa using hd⟩
    rw [greatestWrite_write]
    exact sup_eq_right.mpr hw
  dead hl := by cases hl

theorem Settled.delete (h : Settled es s) (c : C) :
    Settled (es ++ [.delete c]) (s.step (.delete c)) where
  tomb := by simp [Cell.step, h.tomb]
  live c' v' hl := by
    simp only [Cell.step] at hl
    split_ifs at hl with hlt
    obtain ⟨hmem, hw, hd⟩ := h.live c' v' hl
    have hclock : s.clock = c' := by simp [Cell.clock, hl]
    refine ⟨by simp [hmem], by simpa using hw, ?_⟩
    rw [greatestDelete_delete]
    exact sup_lt_iff.mpr ⟨hd, hclock ▸ hlt⟩
  dead hl := by
    rw [greatestWrite_delete, greatestDelete_delete]
    simp only [Cell.step] at hl
    split_ifs at hl with hlt
    · exact (h.dead hl).trans le_sup_left
    cases hlive : s.live with
    | none => exact (h.dead hlive).trans le_sup_left
    | some cv =>
      have hclock : s.clock = cv.1 := by simp [Cell.clock, hlive]
      rw [(h.live cv.1 cv.2 hlive).2.1, ← hclock]
      exact (not_lt.mp hlt).trans le_sup_right

theorem Settled.step (h : Settled es s) (e : Event C V) : Settled (es ++ [e]) (s.step e) := by
  cases e with
  | write c v =>
    simp only [Cell.step]
    split_ifs with hc
    · exact h.write_won hc
    · exact h.write_lost hc
  | delete c => exact h.delete c

theorem run_settled (es : List (Event C V)) : Settled es (Cell.run es) := by
  induction es using List.reverseRecOn with
  | nil => exact ⟨rfl, fun c v h => (by cases h), fun _ => le_rfl⟩
  | append_singleton es e ih =>
    rw [Cell.run_append]
    exact ih.step e

/-! ## 3. Only the set of events counts -/

/-- One clock never carries two values. -/
def Consistent (es : List (Event C V)) : Prop :=
  ∀ c v v', Event.write c v ∈ es → Event.write c v' ∈ es → v = v'

theorem greatestWrite_le_of_subset (h : ∀ e ∈ es, e ∈ es') : greatestWrite es ≤ greatestWrite es' :=
  greatest_mono _ h

theorem greatestDelete_le_of_subset (h : ∀ e ∈ es, e ∈ es') :
    greatestDelete es ≤ greatestDelete es' :=
  greatest_mono _ h

/-- **The live value of a sub-run**: it is the whole run's, as soon as the sub-run holds the
    winning write, or the delete that outranks every write. -/
theorem run_live_of_carried {xs : List (Event C V)} (hcons : Consistent es) (hsub : ∀ e ∈ xs, e ∈ es)
    (hlive : ∀ c v, (Cell.run es).live = some (c, v) → ∃ v', Event.write c v' ∈ xs)
    (hdead : (Cell.run es).live = none → ∀ d : C, greatestDelete es = d → Event.delete d ∈ xs) :
    (Cell.run xs).live = (Cell.run es).live := by
  have hE := run_settled es
  have hX := run_settled xs
  have hdel := greatestDelete_le_of_subset hsub
  have hwr := greatestWrite_le_of_subset hsub
  cases hl : (Cell.run es).live with
  | some cv =>
    obtain ⟨c, v⟩ := cv
    obtain ⟨hmem, hw, hd⟩ := hE.live c v hl
    obtain ⟨v', hv'⟩ := hlive c v hl
    have hcX : greatestWrite xs = c :=
      le_antisymm (hwr.trans hw.le) (le_greatest Event.writeClock hv')
    cases hlx : (Cell.run xs).live with
    | none =>
      have := hX.dead hlx
      rw [hcX] at this
      exact absurd (this.trans hdel) (not_le.mpr hd)
    | some cv' =>
      obtain ⟨c', w⟩ := cv'
      obtain ⟨hmem', hw', -⟩ := hX.live c' w hlx
      obtain rfl : c = c' := WithBot.coe_injective (hcX.symm.trans hw')
      rw [hcons c v w hmem (hsub _ hmem')]
  | none =>
    cases hlx : (Cell.run xs).live with
    | none => rfl
    | some cv' =>
      obtain ⟨c', w⟩ := cv'
      obtain ⟨-, hw', hd'⟩ := hX.live c' w hlx
      have hle : (c' : WithBot C) ≤ greatestDelete es := hw' ▸ hwr.trans (hE.dead hl)
      have hne : greatestDelete es ≠ ⊥ := fun hbot =>
        absurd (hle.trans hbot.le) (not_le.mpr (WithBot.bot_lt_coe c'))
      obtain ⟨d, hd⟩ := WithBot.ne_bot_iff_exists.mp hne
      have hdx : (d : WithBot C) ≤ greatestDelete xs :=
        le_greatest Event.deleteClock (hdead hl d hd.symm)
      exact absurd hd' (not_lt.mpr (hle.trans (hd.ge.trans hdx)))

theorem run_eq_of_mem_iff (hcons : Consistent es) (h : ∀ e, e ∈ es ↔ e ∈ es') :
    Cell.run es' = Cell.run es := by
  have hsub : ∀ e ∈ es', e ∈ es := fun e he => (h e).mpr he
  have hE := run_settled es
  have hlive : (Cell.run es').live = (Cell.run es).live := by
    refine run_live_of_carried hcons hsub (fun c v hl => ⟨v, (h _).mp (hE.live c v hl).1⟩) ?_
    intro _ d hd
    exact (h _).mp (greatestDelete_eq_iff.mp hd |>.1)
  have htomb : (Cell.run es').tomb = (Cell.run es).tomb := by
    rw [(run_settled es').tomb, hE.tomb]
    exact le_antisymm (greatestDelete_le_of_subset hsub)
      (greatestDelete_le_of_subset fun e he => (h e).mp he)
  cases hr : Cell.run es
  cases hr' : Cell.run es'
  simp_all

end RagRat.Lib.Lww
