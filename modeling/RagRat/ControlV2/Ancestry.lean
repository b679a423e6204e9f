/-
  File:      RagRat/ControlV2/Ancestry.lean
  Subject:   THE ANCESTRY WALK of a v2 bundle: does an entry's own chain go back to a branch the
             checkpoint accepted, and what the memo shared by the walks of a bundle makes of the answer.

  * `chainReachesAcceptedLegacy` -- the walk of one entry with the set of hashes that earlier walks reached;
    it stops at such a hash before it looks at device, log or `seq`;
  * `walkAll` -- the walks of a bundle's entries in one order, over one set;
  * `Grounded` -- what the walk is to establish.

  Alone a walk answers exactly `Grounded` (`alone_ok_iff`). With the shared set it does so, in every order,
  exactly if no two walks mix their chains (`walkAll_eq_alone_iff`); otherwise a foreign chain vouches.
-/
import Mathlib.Data.Finset.Card
import Mathlib.Logic.Relation
import Mathlib.Order.Interval.Finset.Nat
import RagRat.Account.Entry

namespace RagRat.ControlV2

open List
open Account Relation

variable {device : DeviceFingerprint} {reached : Finset EntryHash} {budget : Nat} {b : Bundle}
  {s s₀ t : Place} {e : AccountEntryHeader} {p h k : EntryHash} {c : ParkCause}

/-! ## 1. The walk -/

/-- The most v2 entries a bundle may carry as evidence. -/
def maxEntries : Nat := 4096

/-- What an entry waits for. -/
inductive ParkCause where
  | chainHead | ancestry
  deriving DecidableEq

/-- Why a walk gives no ancestry. -/
inductive WalkError where
  | incomplete (cause : ParkCause)
  | overBudget
  deriving DecidableEq

/-- A bundle: the frozen legacy headers, those of the consumer and at most `maxEntries` more, and
    what the checkpoint accepted. A header names no predecessor exactly at `seq` 0. -/
structure Bundle where
  headers : HeaderView
  accepted : EntryHash → Bool
  v2 : Finset EntryHash
  size : v2.card ≤ maxEntries + 1
  mem_v2 : ∀ h x, headers h = some x → (h ∈ v2 ↔ x.opVersion = controlVersion)
  nullity : ∀ h x, headers h = some x → (x.prevHash = none ↔ x.seq = 0)

/-- The loop; its first number is what is left of the budget. -/
def walk (b : Bundle) (device : DeviceFingerprint) (reached : Finset EntryHash) :
    Nat → ParkCause → Nat → EntryHash → Except WalkError (List EntryHash)
  | 0, _, _, hash => if hash ∈ reached then .ok [] else .error .overBudget
  | budget + 1, missing, expectedSeq, hash =>
    if hash ∈ reached then .ok []
    else
      match b.headers hash with
      | none => .error (.incomplete missing)
      | some x =>
        if x.deviceFingerprint ≠ device ∨ x.seq ≠ expectedSeq ∨ x.logId ≠ controlLog then
          .error (.incomplete .ancestry)
        else if x.opVersion ≠ controlVersion then
          if b.accepted hash then .ok [hash] else .error (.incomplete .ancestry)
        else
          match x.prevHash with
          | none => .ok [hash]
          | some prev =>
            (walk b device reached budget .ancestry (expectedSeq - 1) prev).map (hash :: ·)

/-- The walk of one entry: its verdict, and the set with what it walked if it landed. -/
def chainReachesAcceptedLegacy (b : Bundle) (entry : AccountEntryHeader)
    (reached : Finset EntryHash) : Except WalkError Unit × Finset EntryHash :=
  match entry.prevHash with
  | none => (.ok (), reached)
  | some hash =>
    match walk b entry.deviceFingerprint reached (maxEntries + 1) .chainHead (entry.seq - 1) hash with
    | .ok walked => (.ok (), reached ∪ walked.toFinset)
    | .error e => (.error e, reached)

/-- The verdicts of entries walked one after another over one set. -/
def walkAll (b : Bundle) : Finset EntryHash → List AccountEntryHeader → List (Except WalkError Unit)
  | _, [] => []
  | reached, e :: rest =>
    (chainReachesAcceptedLegacy b e reached).1 ::
      walkAll b (chainReachesAcceptedLegacy b e reached).2 rest

/-- The verdict with an empty set. -/
def alone (b : Bundle) (e : AccountEntryHeader) : Except WalkError Unit :=
  (chainReachesAcceptedLegacy b e ∅).1

/-! ## 2. What a walk asks for -/

/-- A place on a walk: the `seq` it expects and the hash it asks for. -/
abbrev Place := Nat × EntryHash

namespace Bundle

variable (b : Bundle)

/-- An entry of the bundle. -/
def Entry (e : AccountEntryHeader) : Prop := ∃ h ∈ b.v2, b.headers h = some e

section

variable (device : DeviceFingerprint)

/-- The header asked for is held, and it is the device's control entry at the expected `seq`. -/
def Fits (s : Place) (x : AccountEntryHeader) : Prop :=
  b.headers s.2 = some x ∧ x.deviceFingerprint = device ∧ x.seq = s.1 ∧ x.logId = controlLog

/-- From a fitting v2 entry to its predecessor, one `seq` below. -/
def Down (s t : Place) : Prop :=
  ∃ x, b.Fits device s x ∧ x.opVersion = controlVersion ∧ x.prevHash = some t.2 ∧ t.1 + 1 = s.1

/-- Where a walk may end: at an accepted legacy entry, or at the device's own origin. -/
def Ends (s : Place) : Prop :=
  ∃ x, b.Fits device s x ∧ (x.opVersion ≠ controlVersion ∧ b.accepted s.2 = true ∨
    x.opVersion = controlVersion ∧ x.prevHash = none)

/-- The walk from a place comes to an end. -/
def Lands (s : Place) : Prop :=
  ∃ t, ReflTransGen (b.Down device) s t ∧ b.Ends device t

end

/-- The first place of an entry's walk. -/
def Heads (e : AccountEntryHeader) (s : Place) : Prop := e.prevHash = some s.2 ∧ s.1 + 1 = e.seq

/-- A place the entry's walk comes to, if nothing stops it before. -/
def Asks (e : AccountEntryHeader) (s : Place) : Prop :=
  ∃ s₀, Heads e s₀ ∧ ReflTransGen (b.Down e.deviceFingerprint) s₀ s

/-- **The entry's chain goes back to a branch the checkpoint accepted, or to its own origin.** -/
def Grounded (e : AccountEntryHeader) : Prop :=
  ∀ s, Heads e s → b.Lands e.deviceFingerprint s

/-- No walk asks for a hash of a landing walk as another device or at another `seq`. -/
def Unmixed : Prop :=
  ∀ e f, b.Entry e → b.Entry f → b.Grounded f → ∀ s t, b.Asks e s → b.Asks f t → s.2 = t.2 →
    e.deviceFingerprint = f.deviceFingerprint ∧ s.1 = t.1

end Bundle

section Places

variable {u : Place}

theorem Down.unique (h : b.Down device s t) (h' : b.Down device s u) : t = u := by
  obtain ⟨x, hx, -, hp, hq⟩ := h
  obtain ⟨y, hy, -, hp', hq'⟩ := h'
  have hxy : x = y := Option.some.inj (hx.1.symm.trans hy.1)
  subst hxy
  exact Prod.ext (by omega) (Option.some.inj (hp.symm.trans hp'))

theorem Ends.not_down (h : b.Ends device s) : ¬ b.Down device s t := by
  rintro ⟨x, hx, hv, hp, -⟩
  obtain ⟨y, hy, hend⟩ := h
  have hxy : x = y := Option.some.inj (hx.1.symm.trans hy.1)
  subst hxy
  rcases hend with ⟨hne, -⟩ | ⟨-, hnone⟩
  · exact hne hv
  · rw [hnone] at hp
    cases hp

theorem Lands.along (h : b.Lands device s) (hr : ReflTransGen (b.Down device) s t) :
    b.Lands device t := by
  induction hr with
  | refl => exact h
  | tail _ hstep ih =>
    obtain ⟨z, hz, hend⟩ := ih
    rcases hz.cases_head with rfl | ⟨w, hw, hwz⟩
    · exact absurd hstep (Ends.not_down hend)
    · exact ⟨z, Down.unique hw hstep ▸ hwz, hend⟩

theorem Lands.fits (h : b.Lands device s) : ∃ x, b.Fits device s x := by
  obtain ⟨z, hz, hend⟩ := h
  rcases hz.cases_head with rfl | ⟨w, ⟨x, hx, -⟩, -⟩
  · obtain ⟨x, hx, -⟩ := hend
    exact ⟨x, hx⟩
  · exact ⟨x, hx⟩

theorem seq_le_of_down (h : ReflTransGen (b.Down device) s t) : t.1 ≤ s.1 := by
  induction h with
  | refl => exact le_refl _
  | tail _ hstep ih =>
    obtain ⟨-, -, -, -, hq⟩ := hstep
    omega

/-- **The budget is enough**: a walk of an entry of the bundle asks for at most `maxEntries` v2 entries,
    for they and the entry itself stand at different `seq`. -/
theorem Asks.within (he : b.Entry e) (hs : Bundle.Heads e s₀)
    (h : ReflTransGen (b.Down e.deviceFingerprint) s₀ t) : s₀.1 ≤ t.1 + maxEntries := by
  have hslots : ∀ q, t.1 < q → q ≤ e.seq → ∃ k ∈ b.v2, ∃ x, b.headers k = some x ∧ x.seq = q := by
    induction h with
    | refl =>
      obtain ⟨k, hk, hx⟩ := he
      exact fun q hlo hhi => ⟨k, hk, e, hx, by have := hs.2; omega⟩
    | tail _ hstep ih =>
      obtain ⟨x, hx, hv, -, hq⟩ := hstep
      intro q hlo hhi
      rcases Nat.lt_or_ge (Prod.fst _) q with hlt | hge
      · exact ih q hlt hhi
      · exact ⟨_, (b.mem_v2 _ x hx.1).mpr hv, x, hx.1, by have := hx.2.2.1; omega⟩
  have hsub : Finset.Ioc t.1 e.seq ⊆ b.v2.image fun k => (b.headers k).elim 0 (·.seq) := by
    intro q hq
    obtain ⟨hlo, hhi⟩ := Finset.mem_Ioc.mp hq
    obtain ⟨k, hk, x, hx, hxq⟩ := hslots q hlo hhi
    exact Finset.mem_image.mpr ⟨k, hk, by rw [hx]; exact hxq⟩
  have hcard := (Finset.card_le_card hsub).trans Finset.card_image_le
  rw [Nat.card_Ioc] at hcard
  have := b.size
  have := hs.2
  omega

theorem heads_of_prev (he : b.Entry e) (hp : e.prevHash = some p) :
    Bundle.Heads e (e.seq - 1, p) := by
  obtain ⟨k, -, hx⟩ := he
  have hne : e.seq ≠ 0 := fun h0 => by
    rw [(b.nullity k e hx).mpr h0] at hp
    cases hp
  exact ⟨hp, by show e.seq - 1 + 1 = e.seq; omega⟩

end Places

/-! ## 3. The walk and its places -/

section Walk

variable {walked : List EntryHash}

theorem exists_of_map_ok {r : Except WalkError (List EntryHash)} (heq : r.map (h :: ·) = .ok walked) :
    ∃ rest, r = .ok rest ∧ h :: rest = walked := by
  cases r with
  | error e => cases heq
  | ok rest => exact ⟨rest, rfl, Except.ok.inj heq⟩

theorem walk_of_mem (hm : h ∈ reached) (budget : Nat) (c : ParkCause) (n : Nat) :
    walk b device reached budget c n h = .ok [] := by
  cases budget <;> simp only [walk, if_pos hm]

theorem walk_ends (hend : b.Ends device s) (hR : s.2 ∉ reached) (budget : Nat) (c : ParkCause) :
    walk b device reached (budget + 1) c s.1 s.2 = .ok [s.2] := by
  obtain ⟨x, ⟨hx, hd, hq, hl⟩, hcase⟩ := hend
  rcases hcase with ⟨hv, hacc⟩ | ⟨hv, hp⟩
  · simp [walk, hR, hx, hd, hq, hl, hv, hacc]
  · simp [walk, hR, hx, hd, hq, hl, hv, hp]

theorem walk_down (hdown : b.Down device s t) (hR : s.2 ∉ reached) (budget : Nat) (c : ParkCause) :
    walk b device reached (budget + 1) c s.1 s.2 =
      (walk b device reached budget .ancestry t.1 t.2).map (s.2 :: ·) := by
  obtain ⟨x, ⟨hx, hd, hq, hl⟩, hv, hp, hone⟩ := hdown
  have hpred : s.1 - 1 = t.1 := by omega
  simp [walk, hR, hx, hd, hq, hl, hv, hp, hpred]

theorem walk_stuck (hend : ¬ b.Ends device s) (hdown : ∀ t, ¬ b.Down device s t) (budget : Nat)
    (c : ParkCause) : ∃ err, ∀ R, s.2 ∉ R → walk b device R (budget + 1) c s.1 s.2 = .error err := by
  cases hx : b.headers s.2 with
  | none => exact ⟨.incomplete c, fun R hR => by simp [walk, hR, hx]⟩
  | some x =>
    refine ⟨.incomplete .ancestry, fun R hR => ?_⟩
    by_cases hfit : x.deviceFingerprint ≠ device ∨ x.seq ≠ s.1 ∨ x.logId ≠ controlLog
    · simp only [walk, if_neg hR, hx, if_pos hfit]
    have hfits : b.Fits device s x := by
      simp only [not_or, not_not] at hfit
      exact ⟨hx, hfit⟩
    have hv : x.opVersion ≠ controlVersion := by
      intro hv
      cases hp : x.prevHash with
      | none => exact hend ⟨x, hfits, .inr ⟨hv, hp⟩⟩
      | some p =>
        -- a predecessor is named only above `seq` 0
        have hpos : s.1 ≠ 0 := fun h0 => by
          rw [(b.nullity _ x hx).mpr (hfits.2.2.1.trans h0)] at hp
          cases hp
        exact hdown (s.1 - 1, p) ⟨x, hfits, hv, hp, Nat.succ_pred_eq_of_ne_zero hpos⟩
    have hacc : b.accepted s.2 = false :=
      Bool.eq_false_iff.mpr fun hacc => hend ⟨x, hfits, .inl ⟨hv, hacc⟩⟩
    simp [walk, hR, hx, hfits.2.1, hfits.2.2.1, hfits.2.2.2, hv, hacc]

theorem walk_ok (hr : ReflTransGen (b.Down device) s t) (budget : Nat)
    (hstop : t.2 ∈ reached ∧ s.1 ≤ budget + t.1 ∨ b.Ends device t ∧ s.1 < budget + t.1)
    (c : ParkCause) : ∃ walked, walk b device reached budget c s.1 s.2 = .ok walked := by
  induction hr using ReflTransGen.head_induction_on generalizing budget c with
  | refl =>
    by_cases hm : t.2 ∈ reached
    · exact ⟨_, walk_of_mem hm ..⟩
    · rcases hstop with ⟨hin, -⟩ | ⟨hend, hlt⟩
      · exact absurd hin hm
      · obtain ⟨k, rfl⟩ : ∃ k, budget = k + 1 := ⟨budget - 1, by omega⟩
        exact ⟨_, walk_ends hend hm k c⟩
  | @head s u hstep hrest ih =>
    by_cases hm : s.2 ∈ reached
    · exact ⟨_, walk_of_mem hm ..⟩
    have hone : u.1 + 1 = s.1 := by
      obtain ⟨-, -, -, -, hone⟩ := hstep
      exact hone
    have hle := seq_le_of_down hrest
    obtain ⟨k, rfl⟩ : ∃ k, budget = k + 1 := ⟨budget - 1, by omega⟩
    have hstop' : t.2 ∈ reached ∧ u.1 ≤ k + t.1 ∨ b.Ends device t ∧ u.1 < k + t.1 :=
      hstop.imp (fun h => ⟨h.1, by omega⟩) fun h => ⟨h.1, by omega⟩
    obtain ⟨walked, hw⟩ := ih k hstop' .ancestry
    exact ⟨s.2 :: walked, by rw [walk_down hstep hm, hw]; rfl⟩

theorem walk_asked (h : walk b device reached budget c s.1 s.2 = .ok walked) :
    ∀ k ∈ walked, ∃ t : Place, t.2 = k ∧ ReflTransGen (b.Down device) s t := by
  induction budget generalizing c s walked with
  | zero =>
    by_cases hm : s.2 ∈ reached
    · rw [walk_of_mem hm] at h
      cases h
      exact fun k hk => absurd hk not_mem_nil
    · rw [walk, if_neg hm] at h
      cases h
  | succ budget ih =>
    by_cases hm : s.2 ∈ reached
    · rw [walk_of_mem hm] at h
      cases h
      exact fun k hk => absurd hk not_mem_nil
    by_cases hend : b.Ends device s
    · rw [walk_ends hend hm] at h
      cases h
      exact fun k hk => ⟨s, (mem_singleton.mp hk).symm, .refl⟩
    by_cases hdown : ∃ t, b.Down device s t
    · obtain ⟨t, hdown⟩ := hdown
      rw [walk_down hdown hm] at h
      obtain ⟨rest, hrest, rfl⟩ := exists_of_map_ok h
      intro k hk
      rcases mem_cons.mp hk with rfl | hk
      · exact ⟨s, rfl, .refl⟩
      · obtain ⟨u, hu, hr⟩ := ih hrest k hk
        exact ⟨u, hu, .head hdown hr⟩
    · obtain ⟨err, herr⟩ := walk_stuck hend (not_exists.mp hdown) budget c
      rw [herr _ hm] at h
      cases h

theorem walk_lands (h : walk b device ∅ budget c s.1 s.2 = .ok walked) :
    b.Lands device s ∧ ∀ t, ReflTransGen (b.Down device) s t → t.2 ∈ walked := by
  have hm : s.2 ∉ (∅ : Finset EntryHash) := Finset.notMem_empty _
  induction budget generalizing c s walked with
  | zero =>
    rw [walk, if_neg hm] at h
    cases h
  | succ budget ih =>
    by_cases hend : b.Ends device s
    · rw [walk_ends hend hm] at h
      cases h
      refine ⟨⟨s, .refl, hend⟩, fun t hr => ?_⟩
      rcases hr.cases_head with rfl | ⟨w, hw, -⟩
      · exact mem_cons_self
      · exact absurd hw (Ends.not_down hend)
    by_cases hdown : ∃ t, b.Down device s t
    · obtain ⟨t, hdown⟩ := hdown
      rw [walk_down hdown hm] at h
      obtain ⟨rest, hrest, rfl⟩ := exists_of_map_ok h
      obtain ⟨⟨z, hz, hend⟩, hall⟩ := ih hrest (Finset.notMem_empty _)
      refine ⟨⟨z, .head hdown hz, hend⟩, fun u hr => ?_⟩
      rcases hr.cases_head with rfl | ⟨w, hw, hwu⟩
      · exact mem_cons_self
      · exact mem_cons_of_mem _ (hall u (Down.unique hw hdown ▸ hwu))
    · obtain ⟨err, herr⟩ := walk_stuck hend (not_exists.mp hdown) budget c
      rw [herr _ hm] at h
      cases h

theorem walk_of_unmet (h : ∀ t, ReflTransGen (b.Down device) s t → t.2 ∉ reached) (budget : Nat)
    (c : ParkCause) : walk b device reached budget c s.1 s.2 = walk b device ∅ budget c s.1 s.2 := by
  have hm := h s .refl
  have hm' : s.2 ∉ (∅ : Finset EntryHash) := Finset.notMem_empty _
  induction budget generalizing c s with
  | zero => rw [walk, walk, if_neg hm, if_neg hm']
  | succ budget ih =>
    by_cases hend : b.Ends device s
    · rw [walk_ends hend hm, walk_ends hend hm']
    by_cases hdown : ∃ t, b.Down device s t
    · obtain ⟨t, hdown⟩ := hdown
      have ht := fun u hu => h u (.head hdown hu)
      rw [walk_down hdown hm, walk_down hdown hm',
        ih ht .ancestry (ht t .refl) (Finset.notMem_empty _)]
    · obtain ⟨err, herr⟩ := walk_stuck hend (not_exists.mp hdown) budget c
      rw [herr _ hm, herr _ hm']

end Walk

/-! ## 4. One entry -/

theorem verdict_eq (hp : e.prevHash = some p) (reached : Finset EntryHash) :
    (chainReachesAcceptedLegacy b e reached).1 =
      (walk b e.deviceFingerprint reached (maxEntries + 1) .chainHead (e.seq - 1) p).map
        fun _ => () := by
  simp only [chainReachesAcceptedLegacy, hp]
  cases walk b e.deviceFingerprint reached (maxEntries + 1) .chainHead (e.seq - 1) p <;> rfl

theorem heads_unique (hs : Bundle.Heads e s) (ht : Bundle.Heads e t) : s = t :=
  Prod.ext (by have := hs.2; have := ht.2; omega) (Option.some.inj (hs.1.symm.trans ht.1))

theorem grounded_of_no_prev (hp : e.prevHash = none) : b.Grounded e := fun s hs => by
  have := hs.1
  rw [hp] at this
  cases this

theorem ok_of_grounded (he : b.Entry e) (hg : b.Grounded e) (reached : Finset EntryHash) :
    (chainReachesAcceptedLegacy b e reached).1 = .ok () := by
  cases hp : e.prevHash with
  | none => simp [chainReachesAcceptedLegacy, hp]
  | some p =>
    have hh := heads_of_prev he hp
    obtain ⟨t, hr, hend⟩ := hg _ hh
    have hwithin := Asks.within he hh hr
    obtain ⟨walked, hw⟩ := walk_ok hr (maxEntries + 1) (.inr ⟨hend, by omega⟩) .chainHead
    rw [verdict_eq hp, hw]
    rfl

theorem alone_ok_iff (he : b.Entry e) : alone b e = .ok () ↔ b.Grounded e := by
  refine ⟨fun h => ?_, fun hg => ok_of_grounded he hg ∅⟩
  cases hp : e.prevHash with
  | none => exact grounded_of_no_prev hp
  | some p =>
    unfold alone at h
    rw [verdict_eq hp] at h
    intro s hs
    rw [heads_unique hs (heads_of_prev he hp)]
    cases hw : walk b e.deviceFingerprint ∅ (maxEntries + 1) .chainHead (e.seq - 1) p with
    | error err => rw [hw] at h; cases h
    | ok walked => exact (walk_lands hw).1

theorem verdict_eq_alone (he : b.Entry e)
    (htrust : ∀ s, b.Asks e s → s.2 ∈ reached → b.Lands e.deviceFingerprint s) :
    (chainReachesAcceptedLegacy b e reached).1 = alone b e := by
  cases hp : e.prevHash with
  | none => simp [chainReachesAcceptedLegacy, alone, hp]
  | some p =>
    have hh := heads_of_prev he hp
    by_cases hg : b.Grounded e
    · rw [ok_of_grounded he hg reached, (alone_ok_iff he).mpr hg]
    -- a walk that does not land never meets the set
    have hunmet : ∀ t, ReflTransGen (b.Down e.deviceFingerprint) (e.seq - 1, p) t →
        t.2 ∉ reached := by
      intro t hr hm
      obtain ⟨z, hz, hend⟩ := htrust t ⟨_, hh, hr⟩ hm
      refine hg fun s hs => ?_
      rw [heads_unique hs hh]
      exact ⟨z, hr.trans hz, hend⟩
    unfold alone
    rw [verdict_eq hp, verdict_eq hp]
    exact congrArg _ (walk_of_unmet hunmet _ _)

theorem asked_of_recorded (he : b.Entry e) (hk : k ∈ (chainReachesAcceptedLegacy b e reached).2) :
    k ∈ reached ∨ ((chainReachesAcceptedLegacy b e reached).1 = .ok () ∧ ∃ s, b.Asks e s ∧ s.2 = k) := by
  cases hp : e.prevHash with
  | none => exact .inl (by simpa [chainReachesAcceptedLegacy, hp] using hk)
  | some p =>
    cases hw : walk b e.deviceFingerprint reached (maxEntries + 1) .chainHead (e.seq - 1) p with
    | error err => exact .inl (by simpa [chainReachesAcceptedLegacy, hp, hw] using hk)
    | ok walked =>
      simp only [chainReachesAcceptedLegacy, hp, hw, Finset.mem_union, mem_toFinset] at hk ⊢
      refine hk.imp_right fun hk => ⟨trivial, ?_⟩
      obtain ⟨t, rfl, hr⟩ := walk_asked (s := (e.seq - 1, p)) hw k hk
      exact ⟨t, ⟨_, heads_of_prev he hp, hr⟩, rfl⟩

theorem recorded_of_asked (he : b.Entry e) (hg : b.Grounded e) (hs : b.Asks e s) :
    s.2 ∈ (chainReachesAcceptedLegacy b e ∅).2 := by
  obtain ⟨s₀, hh, hr⟩ := hs
  have hok := ok_of_grounded he hg ∅
  have hs₀ := heads_unique hh (heads_of_prev he hh.1)
  rw [verdict_eq hh.1] at hok
  cases hw : walk b e.deviceFingerprint ∅ (maxEntries + 1) .chainHead (e.seq - 1) s₀.2 with
  | error err => rw [hw] at hok; cases hok
  | ok walked =>
    have hmem := (walk_lands (s := (e.seq - 1, s₀.2)) hw).2 s (hs₀ ▸ hr)
    simpa [chainReachesAcceptedLegacy, hh.1, hw] using hmem

theorem ok_of_met (he : b.Entry e) (hs : b.Asks e s) (hm : s.2 ∈ reached) :
    (chainReachesAcceptedLegacy b e reached).1 = .ok () := by
  obtain ⟨s₀, hh, hr⟩ := hs
  have hwithin := Asks.within he hh hr
  have hs₀ := heads_unique hh (heads_of_prev he hh.1)
  obtain ⟨walked, hw⟩ := walk_ok hr (maxEntries + 1) (.inl ⟨hm, by omega⟩) .chainHead
  rw [verdict_eq hh.1]
  rw [hs₀] at hw
  rw [hw]
  rfl

/-! ## 5. The shared set -/

/-- Every hash of the set was asked for by an entry whose chain lands. -/
def Vouched (b : Bundle) (reached : Finset EntryHash) : Prop :=
  ∀ k ∈ reached, ∃ f, b.Entry f ∧ b.Grounded f ∧ ∃ t, b.Asks f t ∧ t.2 = k

theorem Vouched.trust (hu : b.Unmixed) (hv : Vouched b reached) (he : b.Entry e) (hs : b.Asks e s)
    (hm : s.2 ∈ reached) : b.Lands e.deviceFingerprint s := by
  obtain ⟨f, hf, hg, t, ht, hts⟩ := hv _ hm
  obtain ⟨hdev, hseq⟩ := hu e f he hf hg s t hs ht hts.symm
  obtain ⟨t₀, hh, hr⟩ := ht
  have hst : s = t := Prod.ext hseq hts.symm
  rw [hdev, hst]
  exact Lands.along (hg t₀ hh) hr

theorem walkAll_eq_alone (hu : b.Unmixed) (order : List AccountEntryHeader)
    (ho : ∀ e ∈ order, b.Entry e) (hv : Vouched b reached) :
    walkAll b reached order = order.map (alone b) := by
  induction order generalizing reached with
  | nil => rfl
  | cons e rest ih =>
    have he := ho e mem_cons_self
    have heq := verdict_eq_alone he fun s hs hm => hv.trust hu he hs hm
    have hv' : Vouched b (chainReachesAcceptedLegacy b e reached).2 := by
      intro k hk
      rcases asked_of_recorded he hk with hold | ⟨hok, hasked⟩
      · exact hv k hold
      · exact ⟨e, he, (alone_ok_iff he).mp (heq ▸ hok), hasked⟩
    rw [walkAll, map_cons, heq, ih (forall_mem_cons.mp ho).2 hv']

/-- **THE MEMO IS SOUND EXACTLY WITHOUT MIXED CHAINS.** In every order of a bundle's entries each
    walk over the shared set answers as it does alone if and only if no walk asks for a hash of a
    landing walk as another device or at another `seq`; and alone the answer is ok exactly if the
    entry's chain is grounded. -/
theorem walkAll_eq_alone_iff (b : Bundle) :
    ((∀ order : List AccountEntryHeader, (∀ e ∈ order, b.Entry e) →
      walkAll b ∅ order = order.map (alone b)) ↔ b.Unmixed) ∧
    ∀ e, b.Entry e → (alone b e = .ok () ↔ b.Grounded e) := by
  refine ⟨⟨fun h e f he hf hg s t hs ht hst => ?_, fun hu order ho => ?_⟩, fun e => alone_ok_iff⟩
  · -- after the landing walk of `f` the one of `e` meets what `f` asked for
    have hall := h [f, e] (by simp [he, hf])
    have hmet : s.2 ∈ (chainReachesAcceptedLegacy b f ∅).2 := hst ▸ recorded_of_asked hf hg ht
    have hok : (chainReachesAcceptedLegacy b e (chainReachesAcceptedLegacy b f ∅).2).1 = .ok () :=
      ok_of_met he hs hmet
    have halone : alone b e = .ok () := by
      simp only [walkAll, map_cons, map_nil, List.cons.injEq, and_true] at hall
      rw [← hall.2, hok]
    obtain ⟨s₀, hh, hr⟩ := hs
    obtain ⟨t₀, hh', hr'⟩ := ht
    obtain ⟨x, hx⟩ := Lands.fits (Lands.along ((alone_ok_iff he).mp halone s₀ hh) hr)
    obtain ⟨y, hy⟩ := Lands.fits (Lands.along (hg t₀ hh') hr')
    have hxy : x = y := Option.some.inj (hx.1.symm.trans (hst ▸ hy.1))
    subst hxy
    exact ⟨hx.2.1.symm.trans hy.2.1, hx.2.2.1.symm.trans hy.2.2.1⟩
  · exact walkAll_eq_alone hu order ho fun k hk => absurd hk (Finset.notMem_empty _)

/-- A legacy entry of device 10, its v2 successor, and a v2 entry of device 20 at `seq` 7 that names
    the same legacy entry. -/
def mixed : Bundle where
  headers := fun h =>
    if h = 1 then some ⟨0, 0, 10, 0, none, none, 1, 0, 0, none⟩
    else if h = 2 then some ⟨0, 0, 10, 1, some 1, none, 2, 0, 0, none⟩
    else if h = 3 then some ⟨0, 0, 20, 7, some 1, none, 2, 0, 0, none⟩
    else none
  accepted := fun h => h = 1
  v2 := {2, 3}
  size := by decide
  mem_v2 := by
    intro h x hx
    split_ifs at hx with h1 h2 h3 <;> simp_all <;> subst hx <;> decide
  nullity := by
    intro h x hx
    split_ifs at hx <;> simp_all <;> subst hx <;> simp

/-- The device-20 entry alone parks; after the walk of the other it passes. -/
theorem foreign_chain_vouches :
    alone mixed ⟨0, 0, 20, 7, some 1, none, 2, 0, 0, none⟩ = .error (.incomplete .ancestry) ∧
      walkAll mixed ∅ [⟨0, 0, 10, 1, some 1, none, 2, 0, 0, none⟩,
        ⟨0, 0, 20, 7, some 1, none, 2, 0, 0, none⟩] = [.ok (), .ok ()] := by
  decide +kernel

end RagRat.ControlV2
