/-
  File:      RagRat/Account/Growth.lean
  Subject:   HOW THE CANDIDATE TABLE GROWS. Whatever a delivery leads to -- the entry itself, parked entries
             it lets in -- reaches the table through `insertCandidate`, row by row, and the reservations
             are only ever topped up.

  * `insertCandidate_inserted` -- when a row is stored, and what is then known of the budgets;
  * `Grows` -- rows stored one after the other, reservations topped up;
  * `Delivers` -- what a delivery can do; `deliverAll_grows` -- a run grows the table by envelopes that were
    delivered.
-/
import RagRat.Account.Ingest

namespace RagRat.Account

open List
open Lib.Loop
open Lib.Cbor (Bytes)

section Growth

variable {W : Type} {codec : Codec W} {wallMs : ℤ} {row : CandidateRow W}
  {P : CandidateRow W → Prop} {signedBytes : W} {c : EntryContent} {envelopes : List W}
  {st st' : AccountStore W} {p : ParkedRow W} {account : AccountId} {node : Node W}
  {outcome : IngestOutcome}

/-! ## 1. One row -/

/-- **What is known when a row is stored.** -/
structure Admits (codec : Codec W) (wallMs : ℤ) (st : CandidateStore W) (row : CandidateRow W) : Prop where
  fresh : st.holds row.hash = false
  entries : (st.charged codec (some row.account) wallMs).entries <
    (accountCaps (isRevocation codec st row)).entries
  bytes : (st.charged codec (some row.account) wallMs).bytes + codec.len row.signedBytes ≤
    (accountCaps (isRevocation codec st row)).bytes
  globalEntries : (st.charged codec none wallMs).entries < candidatesGlobalMax
  globalBytes : (st.charged codec none wallMs).bytes + codec.len row.signedBytes ≤
    candidateBytesGlobalMax

theorem insertCandidate_inserted {st st' : CandidateStore W} :
    insertCandidate codec wallMs st row = (.inserted, st') ↔
      Admits codec wallMs st row ∧ st' = { st with candidates := st.candidates ++ [row] } := by
  constructor
  · intro h
    simp only [insertCandidate] at h
    split_ifs at h with hfresh hentries hbytes hglobal hglobalBytes
    all_goals cases h
    exact ⟨⟨Bool.eq_false_iff.mpr hfresh, not_le.mp hentries, not_lt.mp hbytes, not_le.mp hglobal,
      not_lt.mp hglobalBytes⟩, rfl⟩
  · rintro ⟨h, rfl⟩
    simp only [insertCandidate, h.fresh, Bool.false_eq_true, if_false]
    rw [if_neg (not_le.mpr h.entries), if_neg (not_lt.mpr h.bytes),
      if_neg (not_le.mpr h.globalEntries), if_neg (not_lt.mpr h.globalBytes)]

theorem insertCandidate_unchanged {st st' : CandidateStore W} {insert : CandidateInsert}
    (h : insertCandidate codec wallMs st row = (insert, st')) (hno : insert ≠ .inserted) :
    st' = st := by
  simp only [insertCandidate] at h
  iterate 5
    split at h
    · exact (congrArg Prod.snd h).symm
  exact absurd (congrArg Prod.fst h).symm hno

theorem full_of_atCapacity {st : CandidateStore W} {scope : CapacityScope}
    (h : (insertCandidate codec wallMs st row).1 = .atCapacity scope)
    (hscope : scope.isPerAccount = true) :
    (accountCaps (isRevocation codec st row)).entries ≤
        (st.charged codec (some row.account) wallMs).entries ∨
      (accountCaps (isRevocation codec st row)).bytes <
        (st.charged codec (some row.account) wallMs).bytes + codec.len row.signedBytes := by
  simp only [insertCandidate] at h
  split at h
  · cases h
  split at h
  · exact .inl ‹_›
  split at h
  · exact .inr ‹_›
  split at h
  · cases h
    cases hscope
  split at h
  · cases h
    cases hscope
  · cases h

/-! ## 2. Many rows -/

/-- **The table grows** over a run: rows are stored, and reservations are topped up. -/
inductive Grows (codec : Codec W) (P : CandidateRow W → Prop) (st : CandidateStore W) :
    CandidateStore W → Prop where
  | refl : Grows codec P st st
  | insert {st' st'' : CandidateStore W} (h : Grows codec P st st') (wallMs : ℤ) (row : CandidateRow W)
      (hrow : P row) (hi : insertCandidate codec wallMs st' row = (.inserted, st'')) :
      Grows codec P st st''
  | topUp {st' st'' : CandidateStore W} (h : Grows codec P st st') (wrapBytes wallMs : ℤ)
      (account : AccountId) (targets : ℤ)
      (ht : topUpReservations codec wrapBytes wallMs account targets st' = some st'') :
      Grows codec P st st''

theorem Grows.trans {st st' st'' : CandidateStore W} (h : Grows codec P st st')
    (h' : Grows codec P st' st'') : Grows codec P st st'' := by
  induction h' with
  | refl => exact h
  | insert _ wallMs row hrow hi ih => exact ih.insert wallMs row hrow hi
  | topUp _ wrapBytes wallMs account targets ht ih => exact ih.topUp wrapBytes wallMs account targets ht

theorem grows_insertCandidate (codec : Codec W) (wallMs : ℤ) (st : CandidateStore W)
    (hrow : P row) : Grows codec P st (insertCandidate codec wallMs st row).2 := by
  cases hi : insertCandidate codec wallMs st row with
  | mk insert st' =>
    by_cases hins : insert = .inserted
    · subst hins
      exact Grows.refl.insert wallMs row hrow hi
    · rw [insertCandidate_unchanged hi hins]
      exact .refl

/-! ## 3. A delivery -/

theorem decode_of_authenticate {key : Bytes} (h : authenticateEntry codec signedBytes key = .ok c) :
    codec.decode signedBytes = .ok c := by
  unfold authenticateEntry at h
  split at h
  · cases h
  simp only [bind, Except.bind] at h
  split at h
  · cases h
  rename_i c' hdecode
  split at h
  · cases h
  split at h
  · cases h
  split at h
  · cases h
  cases h
  exact hdecode

/-- The row is an envelope of this list, as it decodes. -/
def FromEnvelopes (codec : Codec W) (envelopes : List W) (row : CandidateRow W) : Prop :=
  row.signedBytes ∈ envelopes ∧ codec.decode row.signedBytes = .ok row.content

/-- **What a delivery can do**: it stores and queues these envelopes. -/
structure Delivers (codec : Codec W) (envelopes : List W) (st st' : AccountStore W) : Prop where
  grows : Grows codec (FromEnvelopes codec envelopes) st.toCandidateStore st'.toCandidateStore
  parked : ∀ p ∈ st'.parked, p ∈ st.parked ∨ p.rawBytes ∈ envelopes

theorem Delivers.refl (codec : Codec W) (envelopes : List W) (st : AccountStore W) :
    Delivers codec envelopes st st := ⟨.refl, fun _ hp => .inl hp⟩

theorem Delivers.trans {st'' : AccountStore W} (h : Delivers codec envelopes st st')
    (h' : Delivers codec envelopes st' st'') : Delivers codec envelopes st st'' :=
  ⟨h.grows.trans h'.grows, fun p hp => (h'.parked p hp).elim (h.parked p) .inr⟩

/-- The bytes of every parked row are among these. -/
def ParkedFrom (envelopes : List W) (st : AccountStore W) : Prop :=
  ∀ p ∈ st.parked, p.rawBytes ∈ envelopes

theorem Delivers.parkedFrom (h : Delivers codec envelopes st st') (hst : ParkedFrom envelopes st) :
    ParkedFrom envelopes st' := fun p hp => (h.parked p hp).elim (hst p) id

theorem mem_of_mem_dropParked {rows : List (ParkedRow W)} {hashes : List Bytes32}
    (h : p ∈ dropParked rows hashes) : p ∈ rows := (mem_filter.mp h).1

theorem promoteRow_delivers (codec : Codec W) (wallMs : ℤ) (s : Promoting W) (row : ParkedRow W)
    (hrow : row.rawBytes ∈ envelopes) :
    Delivers codec envelopes s.store (promoteRow codec wallMs s row).store := by
  unfold promoteRow
  split
  · exact .refl codec envelopes s.store
  simp only
  split
  · exact ⟨.refl, fun p hp => .inl (mem_of_mem_dropParked hp)⟩
  rename_i c hchecked
  have hdecode : codec.decode row.rawBytes = .ok c := by
    simp only [bind, Except.bind] at hchecked
    split at hchecked
    · cases hchecked
    rename_i c' hauth
    split at hchecked
    · cases hchecked
    cases hchecked
    exact decode_of_authenticate hauth
  have hfrom : FromEnvelopes codec envelopes ⟨c, row.rawBytes⟩ := ⟨hrow, hdecode⟩
  have hins := grows_insertCandidate codec wallMs s.store.toCandidateStore hfrom
  split
  · exact ⟨.refl, fun p hp => .inl (mem_of_mem_dropParked hp)⟩
  · rename_i candidates _ hi
    rw [hi] at hins
    exact ⟨hins, fun p hp => .inl (mem_of_mem_dropParked hp)⟩

theorem foldl_delivers (wallMs : ℤ) (rows : List (ParkedRow W))
    (hrows : ∀ r ∈ rows, r.rawBytes ∈ envelopes) (s : Promoting W) :
    Delivers codec envelopes s.store (rows.foldl (promoteRow codec wallMs) s).store := by
  induction rows generalizing s with
  | nil => exact .refl codec envelopes s.store
  | cons row rows ih =>
    have hstep := promoteRow_delivers codec wallMs s row (hrows row mem_cons_self)
    exact hstep.trans (ih (forall_mem_cons.mp hrows).2 _)

theorem promoteRow_parked (codec : Codec W) (wallMs : ℤ) (s : Promoting W) (row : ParkedRow W) :
    (promoteRow codec wallMs s row).store.parked.Sublist s.store.parked ∧
      ((promoteRow codec wallMs s row).promotedAny = true → s.promotedAny = true ∨
        row ∉ (promoteRow codec wallMs s row).store.parked) := by
  have hdrop : row ∉ dropParked s.store.parked [row.signedHash] := fun h => by simp [dropParked] at h
  unfold promoteRow
  split
  · exact ⟨.refl _, .inl⟩
  simp only
  split
  · exact ⟨filter_sublist, .inl⟩
  split
  · exact ⟨filter_sublist, .inl⟩
  · exact ⟨filter_sublist, fun _ => .inr hdrop⟩

theorem promoteRows_parked (codec : Codec W) (wallMs : ℤ) {s : Promoting W} (hs : s.promotedAny = false)
    {rows : List (ParkedRow W)} (hrows : rows ⊆ s.store.parked) :
    (rows.foldl (promoteRow codec wallMs) s).store.parked.Sublist s.store.parked ∧
      ((rows.foldl (promoteRow codec wallMs) s).promotedAny = true →
        ∃ row ∈ s.store.parked, row ∉ (rows.foldl (promoteRow codec wallMs) s).store.parked) := by
  refine List.foldlRecOn (motive := fun x : Promoting W => x.store.parked.Sublist s.store.parked ∧
    (x.promotedAny = true → ∃ row ∈ s.store.parked, row ∉ x.store.parked)) rows (promoteRow codec wallMs)
    ⟨.refl _, fun h => by simp [hs] at h⟩ fun x hx row hrow => ?_
  obtain ⟨hstep, hnew⟩ := promoteRow_parked codec wallMs x row
  refine ⟨hstep.trans hx.1, fun hany => ?_⟩
  rcases hnew hany with hold | hout
  · obtain ⟨r, hr, hgone⟩ := hx.2 hold
    exact ⟨r, hr, fun hin => hgone (hstep.subset hin)⟩
  · exact ⟨row, hrows hrow, hout⟩

theorem promote_isSome (codec : Codec W) (wallMs : ℤ) (account : AccountId) (s : Promoting W) :
    (loop (promoteRound codec wallMs account) (s.store.parked.length + 1) s).isSome := by
  refine loop_isSome (fun _ => True) (fun s => s.store.parked.length) (fun s s' _ hgo => ⟨trivial, ?_⟩) trivial
    (Nat.lt_succ_self _)
  obtain ⟨hsub, hleft⟩ := @promoteRows_parked _ codec wallMs { s with promotedAny := false } rfl
    (pendingRows s.store account) fun row hrow => mem_of_mem_filter ((mem_insertionSort _).mp hrow)
  unfold promoteRound at hgo
  dsimp only at hgo
  split at hgo
  · rename_i hagain
    cases hgo
    obtain ⟨row, hmem, hout⟩ := hleft hagain
    exact lt_of_le_of_ne hsub.length_le fun heq => hout (hsub.eq_of_length heq ▸ hmem)
  · cases hgo

theorem promotePreVerify_delivers (wallMs : ℤ) (hparked : ParkedFrom envelopes st)
    (account : AccountId) :
    Delivers codec envelopes st (promotePreVerify codec wallMs st account).store := by
  have hround : ∀ s : Promoting W, Delivers codec envelopes st s.store →
      Delivers codec envelopes st ((pendingRows s.store account).foldl (promoteRow codec wallMs)
        { s with promotedAny := false }).store := fun s hs =>
    hs.trans (foldl_delivers wallMs _
      (fun r hr => hs.parkedFrom hparked r (mem_filter.mp ((mem_insertionSort _).mp hr)).1) { s with promotedAny := false })
  simp only [promotePreVerify]
  obtain ⟨r, hloop⟩ := Option.isSome_iff_exists.mp (promote_isSome codec wallMs account
    ⟨st, storedDevicePubkeys codec st.toCandidateStore account, none, [], false⟩)
  obtain ⟨s, hs, hturn⟩ := loop_rule (fun s => Delivers codec envelopes st s.store)
    (fun s s' hs hturn => by
      simp only [promoteRound] at hturn
      split at hturn
      · cases hturn
        exact hround s hs
      · cases hturn) (.refl codec envelopes st) hloop
  rw [hloop]
  simp only [promoteRound] at hturn
  split at hturn
  · cases hturn
  · cases hturn
    exact hround s hs

theorem foldAccountState_delivers (h : foldAccountState node wallMs st account = .ok st') :
    Delivers node.codec envelopes st st' := by
  simp only [foldAccountState] at h
  split at h
  · rename_i candidates htop
    cases h
    exact ⟨Grows.refl.topUp _ _ _ _ htop, fun _ hp => .inl hp⟩
  · cases h

theorem eq_ok_of_map {ε α β : Type} {f : α → β} {x : Except ε α} {b : β} (h : x.map f = .ok b) :
    ∃ a, x = .ok a ∧ f a = b := by
  cases x with
  | error => cases h
  | ok a => exact ⟨a, rfl, Except.ok.inj h⟩

theorem storeVerified_delivers (hparked : ParkedFrom envelopes st)
    (hrow : FromEnvelopes node.codec envelopes ⟨c, signedBytes⟩)
    (h : storeVerified node wallMs st signedBytes c = .ok (outcome, st')) :
    Delivers node.codec envelopes st st' := by
  have hins := grows_insertCandidate node.codec wallMs st.toCandidateStore hrow
  simp only [storeVerified] at h
  split at h
  · cases h
    exact .refl _ _ _
  rename_i insert candidates _ hi
  rw [hi] at hins
  split at h
  · cases h
    exact .refl _ _ _
  -- the entry is stored, then what it lets in, then the tables are written
  have hpromoted : Delivers node.codec envelopes { st with toCandidateStore := candidates }
      (if introducesDevice c = true then
        promotePreVerify node.codec wallMs { st with toCandidateStore := candidates } c.account
      else ⟨{ st with toCandidateStore := candidates }, [], none, [], false⟩).store := by
    split
    · have hstored : ParkedFrom envelopes { st with toCandidateStore := candidates } := hparked
      exact promotePreVerify_delivers wallMs hstored c.account
    · exact .refl _ _ _
  have hstored : Delivers node.codec envelopes st { st with toCandidateStore := candidates } :=
    ⟨hins, fun _ hp => .inl hp⟩
  obtain ⟨st'', hfold, heq⟩ := eq_ok_of_map h
  cases heq
  exact (hstored.trans hpromoted).trans (foldAccountState_delivers hfold)

theorem mem_insertPreVerify {parked : List (ParkedRow W)} {row : ParkedRow W}
    (h : p ∈ (insertPreVerify parked row).2) : p ∈ parked ∨ p = row := by
  have hnew : ∀ hashes hashes', p ∈ dropParked (dropParked (parked ++ [row]) hashes) hashes' →
      p ∈ parked ∨ p = row := fun hashes hashes' hp =>
    (mem_append.mp (mem_of_mem_dropParked (mem_of_mem_dropParked hp))).imp_right mem_singleton.mp
  simp only [insertPreVerify] at h
  split at h
  · exact .inl h
  split at h
  · exact (mem_append.mp (mem_of_mem_dropParked h)).imp_right mem_singleton.mp
  split at h
  · exact hnew _ _ h
  · exact hnew _ _ h

variable [DecidableEq W]

theorem accountIngest_delivers {nowMs : ℤ}
    (hparked : ParkedFrom envelopes st) (hmem : signedBytes ∈ envelopes)
    (h : accountIngest node wallMs nowMs st signedBytes = .ok (outcome, st')) :
    Delivers node.codec envelopes st st' := by
  have hsame := Delivers.refl node.codec envelopes st
  unfold accountIngest at h
  split at h
  · cases h
    exact hsame
  rename_i c hdecode
  split at h
  · cases h
    exact hsame
  split at h
  · cases h
    exact hsame
  split at h
  · -- the signer is not known: only the queue changes
    have hqueue : ∀ p ∈ (insertPreVerify st.parked ⟨node.codec.signedHash signedBytes, c.hash, c.account,
        c.device, signedBytes, nowMs⟩).2, p ∈ st.parked ∨ p.rawBytes ∈ envelopes := by
      intro p hp
      obtain hold | rfl := mem_insertPreVerify hp
      · exact .inl hold
      · exact .inr hmem
    split at h
    all_goals
      rename_i hq
      rw [hq] at hqueue
      cases h
      exact ⟨.refl, hqueue⟩
  · cases h
    exact hsame
  · rename_i verified hverified
    obtain ⟨key, -, hauth⟩ := Option.map_eq_some_iff.mp hverified
    exact storeVerified_delivers hparked ⟨hmem, decode_of_authenticate hauth⟩ h

theorem deliver_delivers (node : Node W) (hparked : ParkedFrom envelopes st) {d : Delivery W}
    (hmem : d.signedBytes ∈ envelopes) : Delivers node.codec envelopes st (deliver node st d) := by
  unfold deliver
  split
  · rename_i hing
    exact accountIngest_delivers hparked hmem hing
  · exact .refl _ _ _

/-- **Whatever is stored was delivered**: a run grows the table from nothing, by delivered envelopes. -/
theorem deliverAll_grows (node : Node W) (deliveries : List (Delivery W)) :
    Grows node.codec (FromEnvelopes node.codec (deliveries.map (·.signedBytes))) {}
      (deliverAll node deliveries).toCandidateStore := by
  generalize henv : deliveries.map (·.signedBytes) = envelopes
  have hrun : ∀ (ds : List (Delivery W)) (st : AccountStore W), (∀ d ∈ ds, d.signedBytes ∈ envelopes) →
      ParkedFrom envelopes st →
      Grows node.codec (FromEnvelopes node.codec envelopes) st.toCandidateStore
        (ds.foldl (deliver node) st).toCandidateStore := by
    intro ds
    induction ds with
    | nil => exact fun st _ _ => .refl
    | cons d ds ih =>
      intro st hds hparked
      have hstep := deliver_delivers node hparked (hds d mem_cons_self)
      exact hstep.grows.trans (ih _ (fun d' hd' => hds d' (mem_cons_of_mem d hd'))
        (hstep.parkedFrom hparked))
  exact hrun deliveries {} (fun d hd => henv ▸ mem_map_of_mem hd) nofun

end Growth

end RagRat.Account
