/-
  File:      RagRat/Account/Share.lean
  Subject:   THE REVOCATION FLOOR is shared out by signer. Above the ordinary ceiling a signer adds at most
             its share, so few signers leave room for the owner's removal; but any key can vouch for itself,
             and every key has a share.

  * `Shared` -- an account holds no more than the ordinary ceiling and its signers' shares;
  * `removal_stays_authorable` -- with three signers beside the owner, a removal is never refused for the
    account's budget;
  * `unenrolled_signers_fill_the_floor` -- four keys that were never enrolled fill it.
-/
import Mathlib.Algebra.BigOperators.Ring.Finset
import Mathlib.Algebra.Order.BigOperators.Group.Finset
import RagRat.Account.Growth

namespace RagRat.Account

open List
open Lib.Loop
open Lib.Cbor (Bytes)
open CandidateStore

section Share

variable {W : Type} {codec : Codec W} {st : CandidateStore W} {row : CandidateRow W}

/-! ## 1. What a signer occupies -/

/-- Bytes of some rows. -/
def rowBytes (codec : Codec W) (rows : List (CandidateRow W)) : Nat :=
  (rows.map fun r => codec.len r.signedBytes).sum

/-- Entries a signer may have above the ordinary ceiling: its material, at most its share. -/
def occupiedEntries (st : CandidateStore W) (account : AccountId) (d : DeviceFingerprint) : Nat :=
  min revocationSignerEntries (st.revocationMaterial account d).length

/-- The part of its share a signer has used. -/
def occupiedBytes (codec : Codec W) (st : CandidateStore W) (account : AccountId)
    (d : DeviceFingerprint) : Nat :=
  min revocationSignerBytes (rowBytes codec (st.revocationMaterial account d))

theorem rowBytes_append (rows rows' : List (CandidateRow W)) :
    rowBytes codec (rows ++ rows') = rowBytes codec rows + rowBytes codec rows' := by
  unfold rowBytes
  rw [map_append, sum_append]

theorem cast_rowBytes (rows : List (CandidateRow W)) :
    (rowBytes codec rows : ℤ) = (rows.map fun r => (codec.len r.signedBytes : ℤ)).sum := by
  unfold rowBytes
  rw [Nat.cast_list_sum, map_map]
  rfl

theorem charged_of_unreserved (h : st.reservations = []) (scope : Option AccountId) (wallMs : ℤ) :
    st.charged codec scope wallMs = ⟨(st.rowsIn scope).length, rowBytes codec (st.rowsIn scope)⟩ := by
  simp only [charged, outstanding, h, filter_nil, map_nil, sum_nil, add_zero, cast_rowBytes]

theorem under_share_of_isRevocation (h : isRevocation codec st row = true) :
    row.content.isRevocationMaterial = true ∧
      (st.revocationMaterial row.account row.device).length < revocationSignerEntries ∧
      rowBytes codec (st.revocationMaterial row.account row.device) + codec.len row.signedBytes ≤
        revocationSignerBytes := by
  obtain ⟨hkind, hshare⟩ := Bool.and_eq_true_iff.mp h
  refine ⟨?_, of_decide_eq_true hshare⟩
  obtain hremoval | hmanifest := Bool.or_eq_true_iff.mp hkind
  · obtain ⟨hlog, -, -, htype⟩ := of_decide_eq_true hremoval
    exact decide_eq_true (.inr ⟨hlog, htype⟩)
  · obtain ⟨hplain, htype⟩ := of_decide_eq_true (Bool.and_eq_true_iff.mp hmanifest).1
    obtain ⟨hlog, -, -⟩ := of_decide_eq_true hplain
    exact decide_eq_true (.inl ⟨hlog, htype⟩)

/-! ## 2. The account's bound -/

/-- **An account within its shares**: above the ordinary ceiling there is only what signers occupy. -/
structure Shared (codec : Codec W) (account : AccountId) (signers : Finset DeviceFingerprint)
    (st : CandidateStore W) : Prop where
  unreserved : st.reservations = []
  entries : (st.rowsIn (some account)).length ≤
    ordinaryCandidatesPerAccountMax + ∑ d ∈ signers, occupiedEntries st account d
  bytes : rowBytes codec (st.rowsIn (some account)) ≤
    ordinaryCandidateBytesPerAccountMax + ∑ d ∈ signers, occupiedBytes codec st account d

theorem sum_add_le_sum {ι : Type} [DecidableEq ι] {s : Finset ι} {f g : ι → Nat} {i : ι} {x : Nat}
    (hi : i ∈ s) (hle : ∀ j, f j ≤ g j) (hx : f i + x ≤ g i) : ∑ j ∈ s, f j + x ≤ ∑ j ∈ s, g j := by
  have hrest : ∑ j ∈ s.erase i, f j ≤ ∑ j ∈ s.erase i, g j := Finset.sum_le_sum fun j _ => hle j
  have hf := Finset.add_sum_erase s f hi
  have hg := Finset.add_sum_erase s g hi
  omega

section Append

variable {st : CandidateStore W} {row : CandidateRow W} {account : AccountId}

theorem rowsIn_append_self :
    rowsIn { st with candidates := st.candidates ++ [row] } (some row.account) =
      st.rowsIn (some row.account) ++ [row] := by
  simp [rowsIn]

theorem rowsIn_append_other (h : row.account ≠ account) :
    rowsIn { st with candidates := st.candidates ++ [row] } (some account) =
      st.rowsIn (some account) := by
  simp [rowsIn, h.symm]

theorem revocationMaterial_append (d : DeviceFingerprint) :
    revocationMaterial { st with candidates := st.candidates ++ [row] } account d =
      st.revocationMaterial account d ++ [row].filter fun r =>
        r.account = account ∧ r.device = d ∧ r.content.isRevocationMaterial :=
  filter_append _ _

theorem revocationMaterial_append_self (h : row.content.isRevocationMaterial = true) :
    revocationMaterial { st with candidates := st.candidates ++ [row] } row.account
      row.device = st.revocationMaterial row.account row.device ++ [row] := by
  simp [revocationMaterial_append, h]

theorem occupiedEntries_le_append (d : DeviceFingerprint) : occupiedEntries st account d ≤
    occupiedEntries { st with candidates := st.candidates ++ [row] } account d := by
  unfold occupiedEntries
  rw [revocationMaterial_append, length_append]
  exact min_le_min_left _ (Nat.le_add_right _ _)

theorem occupiedBytes_le_append (d : DeviceFingerprint) : occupiedBytes codec st account d ≤
    occupiedBytes codec { st with candidates := st.candidates ++ [row] } account d := by
  unfold occupiedBytes
  rw [revocationMaterial_append, rowBytes_append]
  exact min_le_min_left _ (Nat.le_add_right _ _)

end Append

variable {account : AccountId} {signers : Finset DeviceFingerprint} {st' : CandidateStore W}

theorem Shared.stored {wallMs : ℤ} (h : Shared codec account signers st)
    (hsigner : row.account = account → row.content.isRevocationMaterial = true → row.device ∈ signers)
    (hi : insertCandidate codec wallMs st row = (.inserted, st')) :
    Shared codec account signers st' := by
  obtain ⟨hadmits, rfl⟩ := insertCandidate_inserted.mp hi
  refine ⟨h.unreserved, ?_, ?_⟩
  all_goals by_cases hacc : row.account = account
  · -- a row of this account: one entry more
    subst hacc
    have hentries := hadmits.entries
    rw [charged_of_unreserved h.unreserved] at hentries
    rw [rowsIn_append_self, length_append, length_singleton]
    cases hrev : isRevocation codec st row with
    | false =>
      rw [hrev] at hentries
      have hroom : (st.rowsIn (some row.account)).length < ordinaryCandidatesPerAccountMax :=
        Int.ofNat_lt.mp hentries
      omega
    | true =>
      obtain ⟨hmaterial, hunder, -⟩ := under_share_of_isRevocation hrev
      have hone : occupiedEntries st row.account row.device + 1 ≤
          occupiedEntries { st with candidates := st.candidates ++ [row] } row.account row.device := by
        unfold occupiedEntries
        rw [revocationMaterial_append_self hmaterial, length_append, length_singleton]
        omega
      have hsum := sum_add_le_sum (hsigner rfl hmaterial) occupiedEntries_le_append hone
      have hheld := h.entries
      omega
  · rw [rowsIn_append_other hacc]
    exact h.entries.trans (Nat.add_le_add_left
      (Finset.sum_le_sum fun d _ => occupiedEntries_le_append d) _)
  · subst hacc
    have hbytes := hadmits.bytes
    rw [charged_of_unreserved h.unreserved] at hbytes
    rw [rowsIn_append_self, rowBytes_append]
    have hrow : rowBytes codec [row] = codec.len row.signedBytes := Nat.add_zero _
    rw [hrow]
    cases hrev : isRevocation codec st row with
    | false =>
      rw [hrev] at hbytes
      have hroom : rowBytes codec (st.rowsIn (some row.account)) + codec.len row.signedBytes ≤
          ordinaryCandidateBytesPerAccountMax := Int.ofNat_le.mp hbytes
      omega
    | true =>
      obtain ⟨hmaterial, -, hunder⟩ := under_share_of_isRevocation hrev
      have hlen : occupiedBytes codec st row.account row.device + codec.len row.signedBytes ≤
          occupiedBytes codec { st with candidates := st.candidates ++ [row] } row.account
            row.device := by
        unfold occupiedBytes
        rw [revocationMaterial_append_self hmaterial, rowBytes_append, hrow]
        omega
      have hsum := sum_add_le_sum (hsigner rfl hmaterial) occupiedBytes_le_append hlen
      have hheld := h.bytes
      omega
  · rw [rowsIn_append_other hacc]
    exact h.bytes.trans (Nat.add_le_add_left
      (Finset.sum_le_sum fun d _ => occupiedBytes_le_append d) _)

theorem Shared.grows {P : CandidateRow W → Prop}
    (h : Shared codec account signers st) (hgrows : Grows codec P st st')
    (hsigner : ∀ row, P row → row.account = account → row.content.isRevocationMaterial = true →
      row.device ∈ signers) : Shared codec account signers st' := by
  induction hgrows with
  | refl => exact h
  | insert _ wallMs row hrow hi ih => exact ih.stored (hsigner row hrow) hi
  | topUp _ wrapBytes wallMs account targets ht ih =>
    -- without reservations there is nothing to top up
    simp only [topUpReservations, CandidateStore.outstanding, ih.unreserved] at ht
    cases ht
    exact ih

theorem shared_empty : Shared codec account signers {} :=
  ⟨rfl, Nat.zero_le _, Nat.zero_le _⟩

/-- **Four shares are the floor**: a signer under its share, with at most three others, has room. -/
theorem Shared.room {others : Finset DeviceFingerprint}
    (h : Shared codec row.account (insert row.device others) st) (hcard : others.card ≤ 3)
    (hshare : signerIsUnderItsRevocationShare codec st row = true) :
    (st.rowsIn (some row.account)).length < candidatesPerAccountMax ∧
      rowBytes codec (st.rowsIn (some row.account)) + codec.len row.signedBytes ≤
        candidateBytesPerAccountMax := by
  obtain ⟨hfew, hsmall⟩ : (st.revocationMaterial row.account row.device).length <
        revocationSignerEntries ∧
      rowBytes codec (st.revocationMaterial row.account row.device) + codec.len row.signedBytes ≤
        revocationSignerBytes := of_decide_eq_true hshare
  -- the owner's own part apart, the others' shares are at most three
  have hsplit : ∀ (f : DeviceFingerprint → Nat) (cap : Nat), (∀ d, f d ≤ cap) →
      ∑ d ∈ insert row.device others, f d ≤ f row.device + 3 * cap := by
    intro f cap hcap
    have hothers : ∑ d ∈ others, f d ≤ others.card * cap :=
      Finset.sum_le_card_nsmul others f cap fun d _ => hcap d
    have hthree : others.card * cap ≤ 3 * cap := Nat.mul_le_mul_right cap hcard
    have hinsert : ∑ d ∈ insert row.device others, f d ≤ f row.device + ∑ d ∈ others, f d := by
      by_cases hmem : row.device ∈ others
      · rw [Finset.insert_eq_of_mem hmem]
        exact Nat.le_add_left _ _
      · rw [Finset.sum_insert hmem]
    omega
  have hentries := h.entries
  have hbytes := h.bytes
  have hsumEntries := hsplit (occupiedEntries st row.account) revocationSignerEntries
    fun d => min_le_left _ _
  have hsumBytes := hsplit (occupiedBytes codec st row.account) revocationSignerBytes
    fun d => min_le_left _ _
  have hown : occupiedEntries st row.account row.device ≤
      (st.revocationMaterial row.account row.device).length := min_le_right _ _
  have hownBytes : occupiedBytes codec st row.account row.device ≤
      rowBytes codec (st.revocationMaterial row.account row.device) := min_le_right _ _
  have hfloor : ordinaryCandidatesPerAccountMax + 4 * revocationSignerEntries =
      candidatesPerAccountMax := by decide
  have hfloorBytes : ordinaryCandidateBytesPerAccountMax + 4 * revocationSignerBytes =
      candidateBytesPerAccountMax := by decide
  omega

variable [DecidableEq W]

theorem shared_deliverAll (node : Node W) (deliveries : List (Delivery W))
    (hsigners : ∀ d ∈ deliveries, ∀ c, node.codec.decode d.signedBytes = .ok c → c.account = account →
      c.isRevocationMaterial = true → c.device ∈ signers) :
    Shared node.codec account signers (deliverAll node deliveries).toCandidateStore := by
  refine shared_empty.grows (deliverAll_grows node deliveries) ?_
  rintro row ⟨hmem, hdecode⟩ hacc hmaterial
  obtain ⟨d, hd, heq⟩ := mem_map.mp hmem
  exact hsigners d hd row.content (heq ▸ hdecode) hacc hmaterial

/-- **Whatever is delivered, the table keeps within its budgets**, of every account and of all together. -/
theorem deliverAll_within (node : Node W) (deliveries : List (Delivery W)) (scope : Option AccountId) :
    ((deliverAll node deliveries).rowsIn scope).length ≤
        scope.elim candidatesGlobalMax (fun _ => candidatesPerAccountMax) ∧
      rowBytes node.codec ((deliverAll node deliveries).rowsIn scope) ≤
        scope.elim candidateBytesGlobalMax fun _ => candidateBytesPerAccountMax := by
  have h := deliverAll_grows node deliveries
  generalize (deliverAll node deliveries).toCandidateStore = st at h ⊢
  suffices hall : st.reservations = [] ∧ _ from hall.2
  induction h with
  | refl => exact ⟨rfl, Nat.zero_le _, Nat.zero_le _⟩
  | topUp _ _ _ _ _ ht ih =>
    simp only [topUpReservations, outstanding, ih.1] at ht
    cases ht
    exact ih
  | @insert st _ _ _ row _ hi ih =>
    obtain ⟨⟨-, hown, hownBytes, hall, hallBytes⟩, rfl⟩ := insertCandidate_inserted.mp hi
    simp only [charged_of_unreserved ih.1] at hown hownBytes hall hallBytes
    refine ⟨ih.1, ?_⟩
    cases scope with
    | none =>
      simp only [rowsIn, filter_append] at hall hallBytes ⊢
      rw [rowBytes_append, length_append]
      exact ⟨Int.ofNat_lt.mp hall, Int.ofNat_le.mp hallBytes⟩
    | some account =>
      by_cases hne : row.account = account
      · subst hne
        have hcaps : ∀ r, (accountCaps r).entries ≤ candidatesPerAccountMax ∧
            (accountCaps r).bytes ≤ candidateBytesPerAccountMax := by decide
        obtain ⟨hcap, hcapBytes⟩ := hcaps (isRevocation node.codec st row)
        rw [rowsIn_append_self, rowBytes_append, length_append]
        exact ⟨Int.ofNat_lt.mp (hown.trans_le hcap), Int.ofNat_le.mp (hownBytes.trans hcapBytes)⟩
      · rw [rowsIn_append_other hne]
        exact ih.2

/-- **A removal stays authorable.** Whatever was delivered, if at most three fingerprints besides the
    owner's, enrolled or not, sign removals or manifests of the account, then a removal by the owner that
    is within the owner's own share is not refused for the account's budget. -/
theorem removal_stays_authorable (node : Node W) (deliveries : List (Delivery W)) (row : CandidateRow W)
    (others : Finset DeviceFingerprint) (hcard : others.card ≤ 3)
    (hsigners : ∀ d ∈ deliveries, ∀ c, node.codec.decode d.signedBytes = .ok c →
      c.account = row.account → c.isRevocationMaterial = true → c.device = row.device ∨ c.device ∈ others)
    (hremoval : row.content.isRemovalCut = true)
    (hshare : signerIsUnderItsRevocationShare node.codec (deliverAll node deliveries).toCandidateStore row =
      true) (wallMs : ℤ) (scope : CapacityScope) (hscope : scope.isPerAccount = true) :
    (insertCandidate node.codec wallMs (deliverAll node deliveries).toCandidateStore row).1 ≠
      .atCapacity scope := by
  intro hfull
  have hshared : Shared node.codec row.account (insert row.device others)
      (deliverAll node deliveries).toCandidateStore :=
    shared_deliverAll node deliveries fun d hd c hc hacc hmat =>
      Finset.mem_insert.mpr (hsigners d hd c hc hacc hmat)
  obtain ⟨hentries, hbytes⟩ := hshared.room hcard hshare
  have hrev : isRevocation node.codec (deliverAll node deliveries).toCandidateStore row = true := by
    unfold isRevocation
    rw [hremoval, hshare]
    rfl
  have hreached := full_of_atCapacity hfull hscope
  rw [hrev, charged_of_unreserved hshared.unreserved] at hreached
  obtain hreached | hreached := hreached
  · exact absurd (Int.ofNat_le.mp hreached) (not_le.mpr hentries)
  · exact absurd (Int.ofNat_lt.mp hreached) (not_lt.mpr hbytes)

end Share

/-! ## 3. Keys that vouch for themselves

A founder, four keys that enroll themselves, the founder's entries up to the ordinary ceiling, and four
removals of 64 KiB by each of the four keys. Envelopes are numbered in the order they are delivered. The
founder's first entry leaves `spare` bytes for a reservation. -/

section

/-- Who signs the `i`-th entry: the owner 100, or one of four keys. -/
def floodSigner (i : Nat) : DeviceFingerprint :=
  if i = 0 then 100
  else if i < 5 then Fin.ofNat _ i
  else if i < 245 then 100
  else if i < 261 then Fin.ofNat _ (1 + (i - 245) / 4)
  else 100

/-- Genesis, four self-enrollments, filler, removals, and the owner's own. -/
def floodOp (i : Nat) : DecodedAccountOp :=
  if i = 0 then .known (.accountGenesis [100])
  else if i < 5 then .known (.deviceAdd (floodSigner i) .owner)
  else if i < 245 then .unknown
  else .known (.deviceRemove (if i < 261 then 100 else 1) .empty .empty [])

def floodType : DecodedAccountOp → Nat
  | .known op => op.entryType
  | _ => 40

def floodSeq (i : Nat) : Nat :=
  if i < 5 then 0 else if i < 245 then i - 4 else if i < 261 then 1 + (i - 245) % 4 else 241

def floodPrev (i : Nat) : Option EntryHash :=
  if i < 5 then none
  else if i = 5 then some 0
  else if 245 ≤ i ∧ i < 261 ∧ floodSeq i = 1 then some (floodSigner i)
  else if i = 261 then some 244
  else some (Fin.ofNat _ (i - 1))

/-- The `i`-th entry. -/
def floodEntry (i : Nat) : EntryContent where
  entry := ⟨⟨7, controlLog, floodSigner i, floodSeq i, floodPrev i, none, 1, 0, 0,
    if i = 0 then none else some 0⟩, floodOp i, 7, Fin.ofNat _ i⟩
  entryType := floodType (floodOp i)
  payload := []
  preCutView := none
  addedKey := if i < 5 then some [Fin.ofNat _ i] else none
  typed op h := by
    have hop : floodOp i = .known op := h
    rw [hop]
    rfl

/-- Its signed bytes. -/
def floodLen (spare i : Nat) : Nat :=
  if i < 5 then 380 else if i = 5 then 63636 - spare else if i < 261 then 65536 else 400

def keyFingerprint : Bytes → Option DeviceFingerprint
  | [b] => some (Fin.ofNat _ b.val)
  | _ => none

/-- The wire of the flood: an entry is its number. -/
def floodCodec (spare : Nat) : Codec Nat where
  decode i := .ok (floodEntry i)
  len := floodLen spare
  signedHash i := Fin.ofNat _ i
  verifies key i := key = [Fin.ofNat _ (floodSigner i).val]
  fingerprint := keyFingerprint
  sha256 key := (keyFingerprint key).getD 0
  payloadError _ := none

def floodNode (spare : Nat) : Node Nat := ⟨floodCodec spare, fun _ _ _ => none, fun _ _ => 0, 0⟩

/-- The first `n` deliveries. -/
def flood (n : Nat) : List (Delivery Nat) := (List.range n).map fun i => ⟨i, 0, 0⟩

def floodRow (i : Nat) : CandidateRow Nat := ⟨floodEntry i, i⟩

/-- The founder's removal of a device. -/
def founderRemoval : CandidateRow Nat := floodRow 261

/-- **Every envelope of the flood is stored.** What is refused is the founder's removal, once the four keys
    have filled their shares. -/
theorem flood_stored :
    signerIsUnderItsRevocationShare (floodCodec 0) (deliverAll (floodNode 0) (flood 257)).toCandidateStore
      founderRemoval = true ∧
    let full := deliverAll (floodNode 0) (flood 261)
    full.revocationMaterial 7 founderRemoval.device = [] ∧
    signerIsUnderItsRevocationShare (floodCodec 0) full.toCandidateStore founderRemoval = true ∧
    (candidateCapacityHeadroom (floodCodec 0) 0 full.toCandidateStore 7).globalEntriesRemaining = 16123 ∧
    (candidateCapacityHeadroom (floodCodec 0) 0 full.toCandidateStore 7).globalBytesRemaining =
      48 * 1024 * 1024 ∧
    (insertCandidate (floodCodec 0) 0 full.toCandidateStore founderRemoval).1 =
      .atCapacity .candidateAccountBytes := by
  decide +kernel

/-- Three of the four keys fill their shares over a full ordinary budget: the founder still has room. -/
theorem removal_stays_authorable_under_three_keys :
    (insertCandidate (floodCodec 0) 0 (deliverAll (floodNode 0) (flood 257)).toCandidateStore founderRemoval).1 ≠
      .atCapacity .candidateAccountBytes := by
  have hkeys : ∀ i < 257, (floodEntry i).isRevocationMaterial = true →
      (floodEntry i).device ∈ ({1, 2, 3} : Finset DeviceFingerprint) := by
    decide +kernel
  refine removal_stays_authorable (floodNode 0) (flood 257) founderRemoval {1, 2, 3} (by decide) ?_
    (by decide +kernel) flood_stored.1 0 .candidateAccountBytes rfl
  intro d hd c hc _ hmaterial
  obtain ⟨i, hi, rfl⟩ := mem_map.mp hd
  cases hc
  exact .inr (hkeys i (mem_range.mp hi) hmaterial)

/-- **Four keys nobody enrolled fill the floor.** Every removal of the run is signed by a key that
    only itself vouches for; the founder holds no removal, and its first is refused for the
    account's budget. -/
theorem unenrolled_signers_fill_the_floor :
    (∀ i < 261, (floodEntry i).isRevocationMaterial = true → ∀ j < 261,
      (certifies (floodCodec 0) (floodEntry j)).map (·.1) = some (floodEntry i).device →
        (floodEntry j).device = (floodEntry i).device) ∧
      certifies (floodCodec 0) (floodEntry 0) = some (founderRemoval.device, [100]) ∧
      founderRemoval.content.isRemovalCut = true ∧
      (deliverAll (floodNode 0) (flood 261)).revocationMaterial 7 founderRemoval.device = [] ∧
      signerIsUnderItsRevocationShare (floodCodec 0) (deliverAll (floodNode 0) (flood 261)).toCandidateStore
        founderRemoval = true ∧
      (candidateCapacityHeadroom (floodCodec 0) 0 (deliverAll (floodNode 0) (flood 261)).toCandidateStore
        7).globalEntriesRemaining = 16123 ∧
      (candidateCapacityHeadroom (floodCodec 0) 0 (deliverAll (floodNode 0) (flood 261)).toCandidateStore
        7).globalBytesRemaining = 48 * 1024 * 1024 ∧
      (insertCandidate (floodCodec 0) 0 (deliverAll (floodNode 0) (flood 261)).toCandidateStore
        founderRemoval).1 = .atCapacity .candidateAccountBytes := by
  exact ⟨by decide +kernel, by decide +kernel, rfl, flood_stored.2⟩

end

end RagRat.Account
