/-
  File:      RagRat/Account/Undisputed.lean
  Subject:   THE PASS AND ITS REPLAY: who is an owner in both.

  The depths judge the entries once while the registers grow, and once more under the registers they end with.
  Between the two a device may change the entry that enrolls it, and an owner of the replay need not have been
  one while the cuts were admitted.

  * `Undisputed` -- an owner mint (or the enrollment it promotes) that no entry judged before it can stand in for.
  * `Replayed` -- the ledger of a replay, with the order its entries are judged in.
  * `Traced`, `Present` -- what the state says was done by an entry, and what an entry did is there.
  * **`Beside.author_live`** -- an undisputed mint of the ledger is live in the pass when its own entries are due.
-/
import RagRat.Account.DepthMemo
import RagRat.Account.Ledger

namespace RagRat.Account

open List
open Lib.Register Lib.Keyed
open Lib.Cbor (Bytes)
open FoldState Function Incarnations Option Candidate

variable {ctx : FoldContext} {ex o : Outcomes} {d founder : DeviceFingerprint} {a b c m : Candidate}
  {led done pre post : List Candidate} {inc : Incarnations} {v : FoldVerdicts} {state : FoldState}

/-! ## 1. Undisputed entries -/

/-- No entry judged before it can keep the entry from its effect: it is the genesis, the first to
    enroll its device, or the first to make an owner of a device enrolled once and not removed; and
    so is what it is signed under and what it promotes. -/
inductive Undisputed (inc : Incarnations) : Candidate → Prop where
  | genesis {c : Candidate} (h : c.hash = inc.genesisOwnerId) : Undisputed inc c
  | adds {c a : Candidate} {d : DeviceFingerprint} {role : DeviceRole} (hop : c.op = .deviceAdd d role)
      (ha : a ∈ inc.candidates) (href : c.header.authorityRef = some a.hash) (h : Undisputed inc a)
      (hfirst : ∀ b ∈ inc.candidates, inc.judgedBefore b c = true → b.enrolls ≠ some d) : Undisputed inc c
  | promotes {c a b : Candidate} {d : DeviceFingerprint} (hop : c.op = .ownerPromote d)
      (ha : a ∈ inc.candidates) (href : c.header.authorityRef = some a.hash) (h : Undisputed inc a)
      (henrolled : Undisputed inc b)
      (hfirst : ∀ x ∈ inc.candidates, inc.judgedBefore x c = true → (x.enrolls = some d → x = b) ∧
        x.removes ≠ some d ∧ (x.isMint = true → x.subjectDevice ≠ d)) : Undisputed inc c

/-! ## 2. What the state says of the entries judged -/

/-- What the state has was done by an entry judged. -/
structure Traced (done : List Candidate) (state : FoldState) : Prop where
  enrolled : ∀ d, (state.roster d).isSome ∨ d ∈ state.tombstoned → ∃ b ∈ done, b.enrolls = some d
  removed : ∀ d ∈ state.tombstoned, ∃ b ∈ done, b.removes = some d
  owned : ∀ d, (state.owners.lookup d).isSome → ∃ b ∈ done, b.isMint = true ∧ b.subjectDevice = d

theorem Traced.mono (h : Traced done state) (c : Candidate) : Traced (done ++ [c]) state where
  enrolled d hd := exists_concat.mpr (.inl (h.enrolled d hd))
  removed d hd := exists_concat.mpr (.inl (h.removed d hd))
  owned d hd := exists_concat.mpr (.inl (h.owned d hd))

theorem owners_enact {id : OwnerId} (h : (state.enact c).owners.lookup d = some id) :
    (state.owners.lookup d = some id ∧ ∀ m : Candidate, m.subjectDevice = d → m.hash = id → c.closes m = false) ∨
      c.isMint = true ∧ c.subjectDevice = d ∧ c.hash = id := by
  have hinsert : ∀ {e : DeviceFingerprint}, (state.owners.insert e c.hash).lookup d = some id →
      state.owners.lookup d = some id ∨ e = d ∧ c.hash = id := by
    intro e h
    rcases eq_or_ne d e with rfl | hne
    · exact .inr ⟨rfl, by simpa using h⟩
    · exact .inl (by rwa [AList.lookup_insert_ne hne] at h)
  have herase : ∀ {e : DeviceFingerprint}, (state.owners.erase e).lookup d = some id →
      state.owners.lookup d = some id ∧ d ≠ e := by
    intro e h
    rcases eq_or_ne d e with rfl | hne
    · simp at h
    · exact ⟨by rwa [AList.lookup_erase_ne hne] at h, hne⟩
  unfold enact applyEffect takeEpoch at h
  unfold isMint subjectDevice closes
  cases hop : c.op with
  | accountGenesis pubkey =>
    simp only [hop, subjectDevice] at h
    exact (hinsert h).imp (fun h => ⟨h, fun _ _ _ => rfl⟩) fun h => ⟨rfl, h⟩
  | deviceAdd e role =>
    by_cases hrole : role = .owner
    · subst hrole
      simp only [hop, if_true] at h
      exact (hinsert h).imp (fun h => ⟨h, fun _ _ _ => rfl⟩) fun h => ⟨rfl, h⟩
    · simp only [hop, hrole, if_false] at h
      exact .inl ⟨h, fun _ _ _ => rfl⟩
  | ownerPromote e =>
    simp only [hop] at h
    exact (hinsert h).imp (fun h => ⟨h, fun _ _ _ => rfl⟩) fun h => ⟨rfl, h⟩
  | deviceRemove e cc sc cuts =>
    simp only [hop] at h
    refine .inl ⟨(herase h).1, fun m hm _ => decide_eq_false fun hem => (herase h).2 ?_⟩
    exact hm.symm.trans hem.symm
  | ownerDemote e id' cc sc =>
    simp only [hop, closesOpenIncarnation] at h
    split at h
    · refine .inl ⟨(herase h).1, fun m hm _ => decide_eq_false fun hem => (herase h).2 ?_⟩
      exact hm.symm.trans hem.1.symm
    · rename_i hno
      refine .inl ⟨h, fun m (hm : m.subjectDevice = d) hid => decide_eq_false fun hem => hno ?_⟩
      rw [hem.1, hem.2, hm, hid]
      exact h
  | _ =>
    simp only [hop] at h
    exact .inl ⟨h, fun _ _ _ => rfl⟩

theorem Traced.enact (h : Traced done state) (hadmits : classifyOp c state = .effective) :
    Traced (done ++ [c]) (state.enact c) where
  enrolled d hd := by
    exact exists_concat.mpr (((roster_enact (roster_of_removes hadmits) d).mp hd).imp_left (h.enrolled d))
  removed d hd := exists_concat.mpr (((tombstoned_enact d).mp hd).imp_left (h.removed d))
  owned d hd := by
    obtain ⟨id, hid⟩ := isSome_iff_exists.mp hd
    exact exists_concat.mpr ((owners_enact hid).imp (fun hold => h.owned d (isSome_of_eq_some hold.1))
      fun hnew => ⟨hnew.1, hnew.2.1⟩)

theorem dropMint_cases (state : FoldState) (c : Candidate) (d : DeviceFingerprint) :
    (((dropMint state c).roster d = state.roster d ∧ (dropMint state c).enrollmentRoles d = state.enrollmentRoles d) ∨
      state.roster d = some c.hash ∧ (dropMint state c).roster d = none) ∧
    ((dropMint state c).owners.lookup d = state.owners.lookup d ∨
      state.owners.lookup d = some c.hash ∧ (dropMint state c).owners.lookup d = none) := by
  have hroster : ∀ e : Bool, (e = true → state.roster c.subjectDevice = some c.hash) →
      ((if e then update state.roster c.subjectDevice none else state.roster) d = state.roster d ∧
        (if e then update state.enrollmentRoles c.subjectDevice none else state.enrollmentRoles) d =
          state.enrollmentRoles d) ∨
      state.roster d = some c.hash ∧
        (if e then update state.roster c.subjectDevice none else state.roster) d = none := by
    intro e he
    cases e with
    | false => exact .inl ⟨rfl, rfl⟩
    | true =>
      rcases eq_or_ne d c.subjectDevice with rfl | hne
      · exact .inr ⟨he rfl, by simp⟩
      · exact .inl ⟨by simp [update_of_ne hne], by simp [update_of_ne hne]⟩
  refine ⟨hroster _ fun he => ?_, ?_⟩
  · split at he
    · exact of_decide_eq_true he
    · cases he
  · unfold dropMint
    dsimp only
    split
    · rename_i howner
      rcases eq_or_ne d c.subjectDevice with rfl | hne
      · exact .inr ⟨howner, by simp⟩
      · exact .inl (AList.lookup_erase_ne hne)
    · exact .inl rfl

theorem Traced.dropMint (h : Traced done state) (c : Candidate) : Traced done (dropMint state c) where
  enrolled d hd := by
    refine h.enrolled d (hd.imp_left fun hd => ?_)
    rcases (dropMint_cases state c d).1 with ⟨heq, -⟩ | ⟨-, heq⟩
    · rwa [heq] at hd
    · simp [heq] at hd
  removed := h.removed
  owned d hd := by
    refine h.owned d ?_
    rcases (dropMint_cases state c d).2 with heq | ⟨-, heq⟩
    · rwa [heq] at hd
    · simp [heq] at hd

/-- What an entry did is there: its incarnation is live, its enrollment stands unless another entry
    enrolled or removed the device. -/
structure Present (done : List Candidate) (state : FoldState) (m : Candidate) : Prop where
  live : m.isMint = true → m.hash ∈ state.live
  enrolls : ∀ d, m.enrolls = some d → m.isMint = false → (∀ x ∈ done, x.enrolls = some d → x = m) →
    (∀ x ∈ done, x.removes ≠ some d) → state.roster d = some m.hash ∧ state.enrollmentRoles d = m.role

theorem Present.mono (h : Present done state m) (c : Candidate) : Present (done ++ [c]) state m where
  live := h.live
  enrolls d hd hmint honly hrem := h.enrolls d hd hmint (fun x hx => honly x (mem_append_left _ hx))
    fun x hx => hrem x (mem_append_left _ hx)

theorem Present.enact (h : Present done state m) (c : Candidate) (hne : c ≠ m) :
    Present (done ++ [c]) (state.enact c) m where
  live hmint := live_enact.mpr (.inl (h.live hmint))
  enrolls d hd hmint honly hrem := by
    have hold := (h.mono c).enrolls d hd hmint honly hrem
    rcases @enrollment_enact c state d with ⟨hc, -⟩ | ⟨hc, -⟩ | ⟨-, -, hroster, hroles⟩
    · exact absurd (honly c (by simp) hc) hne
    · exact absurd hc (hrem c (by simp))
    · rw [hroster, hroles]
      exact hold

theorem present_enact (m : Candidate) : Present done (state.enact m) m where
  live hmint := live_enact.mpr (.inr ⟨rfl, hmint⟩)
  enrolls d hd hmint _ _ := by
    rcases @enrollment_enact m state d with ⟨-, hroster, hroles⟩ | ⟨hrem, -⟩ | ⟨hne, -⟩
    · exact ⟨hroster, hroles⟩
    · rw [(removes_isRoster hrem).2] at hd
      cases hd
    · exact absurd hd hne

theorem Present.dropMint (h : Present done state m) (hne : c.hash ≠ m.hash) :
    Present done (dropMint state c) m where
  live hm := Finset.mem_erase.mpr ⟨hne.symm, h.live hm⟩
  enrolls d hd hm honly hrem := by
    obtain ⟨hroster, hroles⟩ := h.enrolls d hd hm honly hrem
    rcases (dropMint_cases state c d).1 with ⟨heq, heq'⟩ | ⟨hc, -⟩
    · rw [heq, heq']
      exact ⟨hroster, hroles⟩
    · exact absurd (some.inj (hc.symm.trans hroster)) hne

/-! ## 3. An undisputed entry of the ledger has its effect in the pass -/

theorem judgedBefore_asymm (h : inc.judgedBefore b c = true) : inc.judgedBefore c b = false := by
  rw [← Bool.not_eq_true, judgedBefore_iff]
  rintro ⟨i, j, hi, hj, hlt⟩
  obtain ⟨i', j', hi', hj', hlt'⟩ := judgedBefore_iff.mp h
  cases hi.symm.trans hj'
  cases hj.symm.trans hi'
  rcases hlt with hlt | ⟨rfl, hlt⟩
  · omega
  · exact lt_asymm hlt (hlt'.resolve_left (lt_irrefl _)).2

/-- The entries in the order they are judged, and the ledger of their replay. -/
structure Replayed (inc : Incarnations) (led all : List Candidate) : Prop where
  distinct : DistinctHashes inc.candidates
  candidates : all ⊆ inc.candidates
  order : all.Pairwise fun a b => a ≠ b ∧ inc.judgedBefore a b = true
  lawful : Lawful inc led
  sublist : led.Sublist all
  root : ∀ c ∈ inc.candidates, c.hash = inc.genesisOwnerId → c.isMint = true

section Replay

variable {all : List Candidate} (hl : Replayed inc led all) (hsplit : all = done ++ c :: post)

include hl

theorem Replayed.candidate (hc : c ∈ led) : c ∈ inc.candidates :=
  hl.candidates (hl.sublist.subset hc)

include hsplit

theorem Replayed.earlier {x : Candidate} (hx : x ∈ done) :
    x ≠ c ∧ x ∈ inc.candidates ∧ inc.judgedBefore x c = true := by
  subst hsplit
  obtain ⟨hne, hbefore⟩ := (pairwise_append.mp hl.order).2.2 x hx c mem_cons_self
  exact ⟨hne, hl.candidates (mem_append_left _ hx), hbefore⟩

/-- What is judged before an entry does not follow it. -/
theorem Replayed.done_of_before {x : Candidate} (hx : x ∈ all) (hbefore : inc.judgedBefore x c = true) : x ∈ done := by
  refine (mem_append.mp (hsplit ▸ hx)).resolve_right fun hx' => ?_
  have hafter : inc.judgedBefore c x = true := (mem_cons.mp hx').elim (fun heq => heq ▸ hbefore)
    fun hpost => ((pairwise_cons.mp (pairwise_append.mp (hsplit ▸ hl.order)).2.1).1 x hpost).2
  rw [judgedBefore_asymm hbefore] at hafter
  cases hafter

/-- The entries of a ledger before another are those judged before it. -/
theorem Replayed.before_iff {pre rest : List Candidate} (hled : led = pre ++ c :: rest) {x : Candidate} :
    x ∈ pre ↔ x ∈ done ∧ x ∈ led := by
  have hledger := pairwise_append.mp (hled ▸ hl.order.sublist hl.sublist)
  constructor
  · intro hx
    have hxled : x ∈ led := hled ▸ mem_append_left _ hx
    exact ⟨hl.done_of_before hsplit (hl.sublist.subset hxled) (hledger.2.2 x hx c mem_cons_self).2, hxled⟩
  · rintro ⟨hx, hxled⟩
    obtain ⟨hne, -, hbefore⟩ := hl.earlier hsplit hx
    rw [hled] at hxled
    refine (mem_append.mp hxled).resolve_right fun hx' => ?_
    have hcx := ((pairwise_cons.mp hledger.2.1).1 x ((mem_cons.mp hx').resolve_left hne)).2
    rw [judgedBefore_asymm hbefore] at hcx
    cases hcx

end Replay

/-- The ledger so far has the author, and the enrollment the entry promotes. -/
structure Vouched (inc : Incarnations) (led done : List Candidate) (c : Candidate) : Prop where
  author : ∃ id mint, authorIncarnationId c = some id ∧ inc.candidate id = some mint ∧
    mint.subjectDevice = c.header.deviceFingerprint ∧ (id = inc.genesisOwnerId ∨ mint ∈ done ∧ mint ∈ led)
  promotes : ∀ d, c.op = .ownerPromote d →
    ∃ b ∈ done, b ∈ led ∧ b.enrolls = some d ∧ b.role.any DeviceRole.canAuthorContent = true

theorem Replayed.vouched {all : List Candidate} (hl : Replayed inc led all) (hsplit : all = done ++ c :: post)
    (hc : c ∈ led) : Vouched inc led done c := by
  obtain ⟨pre, rest, hled⟩ := append_of_mem hc
  have hpre := fun {x} => @Replayed.before_iff c led done post inc all hl hsplit pre rest hled x
  obtain ⟨⟨id, mint, hid, hmint, hdev, hauthor⟩, -, -, hpromotes⟩ := hl.lawful pre c rest hled
  refine ⟨⟨id, mint, hid, hmint, hdev, hauthor.imp_right hpre.mp⟩, fun d hop => ?_⟩
  obtain ⟨b, hb, hbd⟩ := hpromotes d hop
  exact ⟨b, (hpre.mp hb).1, (hpre.mp hb).2, hbd⟩

/-- A run beside a ledger of the replay, when it has judged `done`. -/
structure Beside (inc : Incarnations) (led done : List Candidate) (state : FoldState) : Prop where
  traced : Traced done state
  rooted : inc.genesisOwnerId ∈ state.live
  present : ∀ m ∈ done, m ∈ led → Undisputed inc m → Present done state m

theorem beside_seeded (inc : Incarnations) (led : List Candidate) : Beside inc led [] (seeded inc.genesisOwnerId) where
  traced := ⟨fun d hd => by simp [seeded] at hd, fun d hd => by simp [seeded] at hd, fun d hd => by simp [seeded] at hd⟩
  rooted := Finset.mem_singleton_self _
  present m hm := absurd hm not_mem_nil

/-- An author is live whose mint is undisputed and in the ledger. -/
theorem Beside.lives (h : Beside inc led done state) (hd : DistinctHashes inc.candidates) {id : OwnerId}
    {mint : Candidate} {parked : EntryHash → Option ParkReason} (hid : authorIncarnationId c = some id)
    (hmint : inc.candidate id = some mint) (hdev : mint.subjectDevice = c.header.deviceFingerprint)
    (hauthor : id = inc.genesisOwnerId ∨ mint ∈ done ∧ mint ∈ led ∧ Undisputed inc mint) :
    authorityStatus c inc state parked = .live := by
  refine authorityStatus_live_iff.mpr ⟨id, mint, hid, hmint, hdev, ?_⟩
  rcases hauthor with rfl | ⟨hdone, hled, hund⟩
  · exact h.rooted
  · obtain ⟨-, hmm, rfl⟩ := (find?_key_eq_some_iff hd).mp hmint
    exact (h.present mint hdone hled hund).live hmm

section Run

variable {all : List Candidate} (hl : Replayed inc led all)

include hl

/-- **An undisputed entry that is vouched for has its effect**, whatever registers the run goes by. -/
theorem Beside.effective {parked : EntryHash → Option ParkReason} (h : Beside inc led done state)
    (hsplit : all = done ++ c :: post) (hund : Undisputed inc c) (hne : c.hash ≠ inc.genesisOwnerId)
    (hvouch : Vouched inc led done c) : classifyEffect c inc state parked = .effective := by
  have hbefore := fun x hx => (@Replayed.earlier c led done post inc all hl hsplit x hx).2
  -- the author is live: its mint is undisputed
  have hlive : ∀ {a : Candidate}, a ∈ inc.candidates → c.header.authorityRef = some a.hash → Undisputed inc a →
      (∀ pubkey, c.op ≠ .accountGenesis pubkey) → authorityStatus c inc state parked = .live := by
    intro a ha href haund hop
    obtain ⟨id, mint, hid, hmint, hdev, hauthor⟩ := hvouch.author
    refine h.lives hl.distinct hid hmint hdev (hauthor.imp_right fun ⟨hdone, hled⟩ => ⟨hdone, hled, ?_⟩)
    obtain ⟨hmem, -, rfl⟩ := (find?_key_eq_some_iff hl.distinct).mp hmint
    rcases live_of_author hid href with heq | ⟨pubkey, hgen, -⟩
    · exact hl.distinct.eq_of_hash ha hmem heq ▸ haund
    · exact absurd hgen (hop pubkey)
  cases hund with
  | genesis hroot => exact absurd hroot hne
  | @adds _ a d role hop ha href haund hfirst =>
    have hnew : ¬ ((state.roster d).isSome ∨ d ∈ state.tombstoned) := fun hin => by
      obtain ⟨b, hb, hbd⟩ := h.traced.enrolled d hin
      exact hfirst b (hbefore b hb).1 (hbefore b hb).2 hbd
    rw [not_or] at hnew
    rw [classifyEffect, hlive ha href haund (by simp [hop])]
    simp [classifyOp, hop, hnew.1, hnew.2]
  | @promotes _ a b d hop ha href haund hbund hfirst =>
    obtain ⟨b', hb', hbled, hbd, hrole⟩ := hvouch.promotes d hop
    have hthere := fun x hx => hfirst x (hbefore x hx).1 (hbefore x hx).2
    obtain rfl := (hthere b' hb').1 hbd
    have hmember : b'.isMint = false := by
      by_contra hmint
      refine (hthere b' hb').2.2 (Bool.eq_true_of_not_eq_false hmint) ?_
      unfold enrolls at hbd
      unfold subjectDevice
      split at hbd <;> simp_all
    obtain ⟨hroster, hroles⟩ := (h.present b' hb' hbled hbund).enrolls d hbd hmember
      (fun x hx => (hthere x hx).1) fun x hx => (hthere x hx).2.1
    have hunowned : state.owners.lookup d = none := by
      by_contra howned
      obtain ⟨x, hx, hxm, hxd⟩ := h.traced.owned d (isSome_iff_ne_none.mpr howned)
      exact (hthere x hx).2.2 hxm hxd
    have hunremoved : d ∉ state.tombstoned := fun hin => by
      obtain ⟨x, hx, hxd⟩ := h.traced.removed d hin
      exact (hthere x hx).2.1 hxd
    rw [classifyEffect, hlive ha href haund (by simp [hop])]
    simp [classifyOp, hop, hroster, hroles, hrole, hunowned, hunremoved]

theorem Beside.step {g : EntryHash} (hv : v.Refuses g) {s : FoldState × Outcomes} (h : Beside inc led done s.1)
    (hsplit : all = done ++ c :: post)
    (hdec : c ∈ led → c.hash ≠ inc.genesisOwnerId → v.decided c.hash = none) :
    Beside inc led (done ++ [c]) (effectStep inc v s c).1 := by
  have hother : ∀ m ∈ done, c ≠ m := fun m hm => (hl.earlier hsplit hm).1.symm
  have henact : classifyOp c s.1 = .effective → Beside inc led (done ++ [c]) (s.1.enact c) := fun hadmits =>
    { traced := h.traced.enact hadmits
      rooted := live_enact.mpr (.inl h.rooted)
      present := forall_mem_append.mpr ⟨fun m hm hled hund => (h.present m hm hled hund).enact c (hother m hm),
        fun m hm _ _ => by obtain rfl := mem_singleton.mp hm; exact present_enact m⟩ }
  by_cases hcl : c ∈ led ∧ Undisputed inc c ∧ c.hash ≠ inc.genesisOwnerId
  · obtain ⟨hled, hund, hne⟩ := hcl
    have hclass := @Beside.effective c led done post inc s.1 all hl v.parked h hsplit hund hne
      (hl.vouched hsplit hled)
    rw [effectStep_of_effective (hdec hled hne) hclass]
    exact henact (classifyEffect_effective hclass).2
  · rcases @effectStep_cases g v s.1 inc hv s.2 c with ⟨x, -, heq⟩ | ⟨hen, heq⟩
    · rw [heq]
      refine ⟨h.traced.mono c, h.rooted, forall_mem_append.mpr
        ⟨fun m hm hled hund => (h.present m hm hled hund).mono c, fun m hm hled hund => ?_⟩⟩
      -- the genesis is live from the start
      obtain rfl := mem_singleton.mp hm
      have hgen : m.hash = inc.genesisOwnerId := by_contra fun hne => hcl ⟨hled, hund, hne⟩
      have hmint := hl.root m (hl.candidate hled) hgen
      exact ⟨fun _ => hgen ▸ h.rooted, fun d _ hno => by simp [hmint] at hno⟩
    · rw [heq]
      exact henact hen.admits

theorem Beside.run {g : EntryHash} (hv : v.Refuses g) {s : FoldState × Outcomes} (rest : List Candidate)
    (h : Beside inc led done s.1) (hsplit : all = done ++ (rest ++ post))
    (hdec : ∀ c ∈ rest, c ∈ led → c.hash ≠ inc.genesisOwnerId → v.decided c.hash = none) :
    Beside inc led (done ++ rest) (rest.foldl (effectStep inc v) s).1 := by
  induction rest generalizing done s with
  | nil => rwa [append_nil]
  | cons c rest ih =>
    obtain ⟨hc, hrest⟩ := forall_mem_cons.mp hdec
    rw [append_cons]
    exact ih (h.step hl hv hsplit hc) (by simpa using hsplit) hrest

end Run

/-! ## 4. The depths of a live pass -/

section Depths

variable {strata pre post : List (Nat × List Candidate)} {x : Nat × List Candidate} {s : DepthPass × Outcomes}

theorem Beside.drops (hr : Rooted ctx) {p : DepthPass} (h : Beside ctx.incarnations led done p.state)
    (hled : led ⊆ ctx.candidates) (hdec : ∀ c ∈ led, c.hash ≠ ctx.rootId →
      (rederiveCondemnation ctx p).verdicts.decided c.hash = none) :
    Beside ctx.incarnations led done (rederiveCondemnation ctx p).state := by
  refine List.foldlRecOn (motive := Beside ctx.incarnations led done) _ dropMint h fun state hstate c hc => ?_
  obtain ⟨hmem, hcond⟩ := mem_filter.mp hc
  obtain ⟨-, hcond⟩ := of_decide_eq_true hcond
  have hne : c.hash ≠ ctx.rootId := by
    intro heq
    rw [rederived, if_pos (.inl heq)] at hcond
    cases hcond
  refine ⟨hstate.traced.dropMint c, Finset.mem_erase.mpr ⟨hne.symm, hstate.rooted⟩, fun m hm hml hund =>
    (hstate.present m hm hml hund).dropMint fun heq => ?_⟩
  obtain rfl := hr.distinct.eq_of_hash hmem (hled hml) heq
  have hnone := hdec c hml hne
  simp only [FoldVerdicts.decided, rederiveCondemnation, insertAll_of_mem hr.distinct hmem, or_eq_none_iff,
    map_eq_none_iff] at hnone
  rw [hnone.1.1] at hcond
  cases hcond

/-- **Before every depth of a pass that ends live** the run is beside the ledger of its replay. -/
theorem beside_depths (hr : Rooted ctx) {all : List Candidate} (hl : Replayed ctx.incarnations led all)
    (hview : ∀ c ∈ ctx.candidates, ctx.view c.hash = some c.header)
    (hs : Stratified ctx (pre ++ x :: post)) (hv : s.1.verdicts.Refuses ctx.rootId) (hold : s.1.Derived ctx)
    (hbeside : Beside ctx.incarnations led done s.1.state)
    (hsplit : all = done ++ judged (pre ++ x :: post))
    (hlive : (foldDepths ctx (pre ++ x :: post) s).1.classification = .live)
    (hdec : ∀ c ∈ led, (foldDepths ctx (pre ++ x :: post) s).1.verdicts.decided c.hash = none) :
    ∃ old : DepthPass, Beside ctx.incarnations led (done ++ judged pre) old.state ∧ old.Derived ctx ∧
      DepthPass.Ends ctx old (foldDepths ctx (pre ++ x :: post) s).1 (x :: post) := by
  induction pre generalizing done s with
  | nil =>
    refine ⟨s.1, by rwa [show judged [] = [] from rfl, append_nil], hold, ?_⟩
    exact (foldDepths_rule (fun _ => True) (fun _ _ _ _ => trivial) hs (fun _ _ _ _ _ _ _ _ => trivial) hv hold
      trivial).2.1 hlive
  | cons y pre ih =>
    rw [cons_append] at hs hsplit hlive hdec ⊢
    rcases foldDepths_cons hs hv hold with ⟨p, -, heq, -, -, hcontested⟩ | ⟨p, -, heq, hp, hredo, hder, -⟩
    · rw [heq] at hlive
      exact absurd hlive hcontested
    · rw [heq] at hlive hdec ⊢
      have hled : led ⊆ ctx.candidates := fun c => hl.candidate
      have hund : ∀ c ∈ led, c.hash ≠ ctx.rootId → (rederiveCondemnation ctx p).verdicts.decided c.hash = none :=
        fun c hc hne => foldDepths_undecided (s := afterRegisters ctx y.2 p s.2) hs.tail hredo hder hlive
          (hview c (hled hc)) (hled hc) hne (hdec c hc)
      have hdrops := Beside.drops hr (hp.state_eq ▸ hbeside) hled hund
      have hrun := hdrops.run (s := ((rederiveCondemnation ctx p).state, s.2)) hl hredo (sorted effectRank y.2)
        (show all = done ++ (sorted effectRank y.2 ++ judged (pre ++ x :: post)) from hsplit) fun c _ hc => hund c hc
      obtain ⟨old, hold, h⟩ := ih hs.tail hredo hder hrun (by simpa [judged] using hsplit) hlive hdec
      exact ⟨old, by simpa [judged] using hold, h⟩

theorem authorDepth_lt (hmint : inc.candidate a.hash = some a) (hne : a.hash ≠ inc.genesisOwnerId)
    (hop : ∀ pubkey, a.op ≠ .accountGenesis pubkey) (hc : authorIncarnationId c = some a.hash) {i j : Nat}
    (hi : inc.authorDepth a = some i) (hj : inc.authorDepth c = some j) : i < j := by
  rw [authorDepth, hc, bind_some, incarnationDepth_iff, reaches_iff] at hj
  cases hp : a.header.authorityRef with
  | none => simp [cited, hmint, hne, hp] at hj
  | some p =>
    obtain ⟨d, hd, rfl⟩ : ∃ d, inc.Reaches p d ∧ d + 1 = j := by
      simpa [cited, hmint, hne, hp] using hj
    have hauthor : authorIncarnationId a = some p := by
      unfold authorIncarnationId
      split
      · rename_i pubkey hgen
        exact absurd hgen (hop pubkey)
      · exact hp
    rw [authorDepth, hauthor, bind_some, incarnationDepth_iff] at hi
    rw [hi.unique hd]
    exact Nat.lt_succ_self d

theorem Lawful.not_genesis (hlaw : Lawful inc led) (ha : a ∈ led) (hroot : a.hash ≠ inc.genesisOwnerId)
    (pubkey : Bytes) : a.op ≠ .accountGenesis pubkey := by
  intro hgen
  obtain ⟨pre, post, hsplit⟩ := append_of_mem ha
  obtain ⟨⟨id, mint, hid, -, -, hbefore⟩, hopens, -⟩ := hlaw pre a post hsplit
  rw [hopens pubkey hgen] at hbefore
  simp only [authorIncarnationId, hgen] at hid
  exact hroot ((some.inj hid).trans (hbefore.resolve_right not_mem_nil))

theorem Beside.author_live (hr : Rooted ctx) (hlaw : Lawful ctx.incarnations led)
    (hsub : led ⊆ judged (pre ++ x :: post))
    (hdepth : ∀ y ∈ pre ++ x :: post, ∀ c ∈ y.2, ctx.incarnations.authorDepth c = some y.1)
    (hasc : (pre ++ x :: post).Pairwise fun y z => y.1 < z.1)
    (h : Beside ctx.incarnations led (judged pre) state) (hc : c ∈ led) (hx : c ∈ x.2) (ha : a ∈ ctx.candidates)
    (href : c.header.authorityRef = some a.hash) (hund : Undisputed ctx.incarnations a)
    (hop : ∀ pubkey, c.op ≠ .accountGenesis pubkey) (parked : EntryHash → Option ParkReason) :
    authorityStatus c ctx.incarnations state parked = .live := by
  obtain ⟨before, after, hled⟩ := append_of_mem hc
  obtain ⟨id, mint, hid, hmint, hdev, hauthor⟩ := (hlaw before c after hled).author
  refine h.lives hr.distinct hid hmint hdev (or_iff_not_imp_left.mpr fun hroot => ?_)
  obtain ⟨hmem, -, rfl⟩ := (find?_key_eq_some_iff hr.distinct).mp hmint
  obtain rfl : a = mint := by
    rcases live_of_author hid href with heq | ⟨pubkey, hgen, -⟩
    · exact hr.distinct.eq_of_hash ha hmem heq
    · exact absurd hgen (hop pubkey)
  have haled : a ∈ led := hled ▸ mem_append_left _ (hauthor.resolve_left hroot)
  refine ⟨?_, haled, hund⟩
  obtain ⟨y, hy, hay⟩ := mem_flatMap.mp (hsub haled)
  replace hay := (mem_sorted effectRank).mp hay
  have hlt := authorDepth_lt hmint hroot (hlaw.not_genesis haled hroot) hid (hdepth y hy a hay) (hdepth x (by simp) c hx)
  refine mem_flatMap.mpr ⟨y, (mem_append.mp hy).resolve_right fun hy' => ?_, (mem_sorted effectRank).mpr hay⟩
  rcases mem_cons.mp hy' with rfl | hy'
  · exact lt_irrefl _ hlt
  · exact lt_asymm hlt ((pairwise_cons.mp (pairwise_append.mp hasc).2.1).1 y hy')

theorem Rooted.replayed (hr : Rooted ctx) (hlaw : Lawful ctx.incarnations led)
    (hsub : led.Sublist (judgedOrder ex ctx.incarnations founder)) :
    Replayed ctx.incarnations led (judgedOrder ex ctx.incarnations founder) where
  distinct := hr.distinct
  candidates := judgedOrder_subset
  order := judgedOrder_pairwise hr.distinct
  lawful := hlaw
  sublist := hsub
  root c hc hroot := by
    obtain ⟨pubkey, hop⟩ := (hr.root c hc hroot).op
    simp [isMint, hop]

/-- **The cuts of an undisputed author are installed**: in a pass that ends live the registers hold those of every
    revocation of the replay's ledger. -/
theorem cuts_installed (hr : Rooted ctx) (hview : ∀ c ∈ ctx.candidates, ctx.view c.hash = some c.header)
    (hlaw : Lawful ctx.incarnations led) (hsub : led.Sublist (judgedOrder ex ctx.incarnations founder)) (o : Outcomes)
    {final : DepthPass × Outcomes}
    (hfinal : foldDepths ctx (strataOf ex ctx.incarnations founder) ({ state := seeded ctx.rootId }, o) = final)
    (hlive : final.1.classification = .live) (hdec : ∀ c ∈ led, final.1.verdicts.decided c.hash = none) :
    ∀ c ∈ led, ∀ a ∈ ctx.candidates, c.header.authorityRef = some a.hash → Undisputed ctx.incarnations a →
      ∀ r ∈ cutOpRegisters c, final.1.registers.Holds ctx.view r.1 r.2.1 := by
  intro c hc a ha href hund r hreg
  obtain ⟨x, hx, hcx⟩ := mem_judgedOrder (hsub.subset hc)
  have hcc := (mem_strataOf hx hcx).1
  have hop : ∀ pubkey, c.op ≠ .accountGenesis pubkey := fun pubkey hop => by simp [cutOpRegisters, hop] at hreg
  have hne : c.hash ≠ ctx.rootId := fun hroot => by simp [(hr.uncut hcc hroot).1] at hreg
  have hasc := @strata_ascending ctx ex founder
  have hstrat := @Rooted.stratified ctx ex founder hr
  have hdepth : ∀ y ∈ strataOf ex ctx.incarnations founder, ∀ c ∈ y.2, ctx.incarnations.authorDepth c = some y.1 :=
    fun y hy c hc => (mem_strataOf hy hc).2.2
  have hl := hr.replayed hlaw hsub
  unfold judgedOrder at hsub hl
  obtain ⟨pre, post, hsplit⟩ := append_of_mem hx
  rw [hsplit] at hfinal hsub hl hasc hdepth hstrat
  subst hfinal
  obtain ⟨old, hbeside, hderived, hends⟩ := beside_depths hr hl hview hstrat
    (s := ({ state := seeded ctx.rootId }, o)) (refuses_start _) (derived_start ctx _) (beside_seeded _ _) rfl
    hlive hdec
  have hlives := hbeside.author_live hr hlaw hsub.subset hdepth hasc hc hcx ha href hund hop old.verdicts.parked
  have hundec := hends.undecided hends.derived hderived (hview c hcc) hcc hne (hdec c hc)
  exact hends.installs x rfl c hcx (admission_not_skip hundec (ne_nil_of_mem hreg) hlives) (hdec c hc) r hreg

end Depths

end RagRat.Account
