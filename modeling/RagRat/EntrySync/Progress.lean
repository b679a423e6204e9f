/-
  File:      RagRat/EntrySync/Progress.lean
  Subject:   AN ENTRY SESSION ENDS, and has converged then. Unless a side fails for reasons of its own,
             one of the two can always go on until both have returned: what one of them waits for is
             something the other has still to write, and the two never wait for each other.

  * `Side.work` -- what is left for a side to do; every action but a failure lessens it;
  * `Moves` -- the side can go on; `moves_sender`, `moves_read`, `moves_joined` say when;
  * `one_moves` -- no deadlock;
  * `session_ends` -- from every state of an unbroken session both sides can return;
  * `entry_session_converges` -- the session.
-/
import RagRat.EntrySync.Transfer

namespace RagRat.EntrySync

open List
open Lib.Cbor (Bytes)

/-! ## 1. One side -/

section Work

variable {S : Type} {cfg peer : Config} {ingest : IngestInto S} {inbox : List Frame} {closed : Bool}
  {s s' : Side S}

/-- The steps of the sender that write nothing. -/
def SenderState.pause : SenderState → Nat
  | .hello | .awaiting => 1
  | _ => 0

/-- **What is left to do**: frames to write and to read, the inventory to take, the return. -/
def Side.work (cfg peer : Config) (s : Side S) : Nat :=
  (s.unwritten cfg peer).length + ((script peer cfg).drop s.taken).length + s.sender.pause +
    if s.result.isNone then 1 else 0

/-- The side can go on without failing. -/
def Moves (cfg peer : Config) (ingest : IngestInto S) (inbox : List Frame) (closed : Bool)
    (s : Side S) : Prop :=
  ∃ a s', s.act cfg ingest inbox closed a = some s' ∧ ¬ s'.Failed ∧ s'.work cfg peer < s.work cfg peer

theorem not_failed_of_none (hr : s.result = none) : ¬ s.Failed := by
  rintro ⟨why, herr⟩
  rw [hr] at herr
  cases herr

theorem moves_sender (hr : s.result = none) (hf : Follows cfg peer s)
    (hs : s.sender = .hello ∨ (s.sender = .awaiting ∧ s.peerHave.isSome) ∨
      ∃ total rest, s.sender = .streaming total rest) : Moves cfg peer ingest inbox closed s := by
  rcases hs with hs | ⟨hs, hp⟩ | ⟨total, rest, hs⟩
  · refine ⟨.writeHello, { s with
      sender := .awaiting
      out := s.out ++ [.hello cfg.accountId cfg.inventory] }, ?_, not_failed_of_none hr, ?_⟩
    · simp [Side.act, hr, hs]
    · simp only [Side.work, Side.unwritten, hs, hr, SenderState.pause, script, length_cons]
      omega
  · obtain ⟨holds, hp⟩ := Option.isSome_iff_exists.mp hp
    obtain rfl := hf.inventory holds hp
    refine ⟨.takeInventory, { s with
      sender := .streaming (cfg.toSend peer.inventory).length (cfg.toSend peer.inventory) }, ?_,
      not_failed_of_none hr, ?_⟩
    · simp [Side.act, hr, hs, hp]
    · simp only [Side.work, Side.unwritten, hs, hr, SenderState.pause]
      omega
  · cases hrest : rest with
    | nil =>
      subst hrest
      refine ⟨.writeDone, { s with sender := .finished total, out := s.out ++ [.done] }, ?_,
        not_failed_of_none hr, ?_⟩
      · simp [Side.act, hr, hs]
      · have hle : (if AckStep.send ∈ s.acks then [Frame.ack] else []).length ≤ 1 := by
          split <;> simp
        simp only [Side.work, Side.unwritten, hs, hr, SenderState.pause, pages_nil, nil_append,
          length_cons, length_nil]
        omega
    | cons b l =>
      have hne : rest ≠ [] := by rw [hrest]; exact cons_ne_nil _ _
      refine ⟨.writePage, { s with
        sender := .streaming total (rest.drop (pageLength rest))
        out := s.out ++ [nextPage rest] }, ?_, not_failed_of_none hr, ?_⟩
      · simp [Side.act, hr, hs, hne]
      · simp only [Side.work, Side.unwritten, hs, hr, SenderState.pause, pages_of_ne_nil hne,
          cons_append, length_cons]
        omega

theorem readNext_of_lt (closed : Bool) (hin : inbox <+: script peer cfg)
    (hlt : s.taken < inbox.length) (take : Frame → Side S × Option SessionError) :
    ∃ frame, (script peer cfg)[s.taken]? = some frame ∧
      ∀ x, take frame = (x, none) →
        s.readNext inbox closed take = some { x with taken := s.taken + 1 } := by
  refine ⟨inbox[s.taken], ?_, fun x htake => ?_⟩
  · obtain ⟨rest, hrest⟩ := hin
    rw [← hrest, List.getElem?_append_left hlt, List.getElem?_eq_getElem hlt]
  · unfold Side.readNext
    rw [List.getElem?_eq_getElem hlt]
    simp only [htake]

theorem drop_succ_lt {α : Type} {l : List α} {n : Nat} {a : α} (h : l[n]? = some a) :
    (l.drop (n + 1)).length < (l.drop n).length := by
  rw [drop_eq_cons h, length_cons]
  exact Nat.lt_succ_self _

theorem receiveEntries_ne_store (hstore : ∀ st bytes, (ingest st bytes).isSome)
    (entries : List Bytes) (received newlyStored : Nat) (s x : Side S) :
    receiveEntries cfg ingest entries received newlyStored s ≠ (x, .error .store) := by
  induction entries generalizing received newlyStored s with
  | nil => nofun
  | cons bytes later ih =>
    intro h
    simp only [receiveEntries] at h
    split at h
    · cases h
    · obtain ⟨⟨outcome, store⟩, hing⟩ := Option.isSome_iff_exists.mp (hstore s.store bytes)
      simp only [hing] at h
      exact ih _ _ _ h

theorem receive_ne_store (hstore : ∀ st bytes, (ingest st bytes).isSome) (frame : Frame)
    (s x : Side S) : receive cfg ingest frame s ≠ (x, some .store) := by
  intro h
  unfold receive at h
  split at h
  · split at h
    · split at h <;> cases h
    · cases h
  · split at h
    · split at h
      · cases h
      split at h
      · cases h
      split at h
      · cases h
      split at h
      · rename_i herr
        cases h
        exact receiveEntries_ne_store hstore _ _ _ _ _ herr
      · cases h
    · split at h <;> cases h
    all_goals cases h
  · cases h

theorem moves_read (hstore : ∀ st bytes, (ingest st bytes).isSome) (hc : Agrees cfg peer)
    (hin : inbox <+: script peer cfg) (hr : s.result = none) (hf : Follows cfg peer s)
    (hopen : ∀ received stored, s.receiver ≠ .finished received stored)
    (hlt : s.taken < inbox.length) : Moves cfg peer ingest inbox closed s := by
  have hread : .read ∈ s.acks :=
    hf.acks_of_not_joined (not_joined (.inr hopen)) ▸ mem_acknowledgeInOrder _ _
  obtain ⟨frame, hframe, hnext⟩ :=
    readNext_of_lt closed hin hlt fun frame => receive cfg ingest frame s
  obtain ⟨x, htakes, herr | ⟨hok, -, -⟩⟩ :=
    receive_script ingest hc.push hc.account hc.bound hf.reads hopen hread hframe
  · exact absurd herr (receive_ne_store hstore _ _ _)
  refine ⟨.read, { x with taken := s.taken + 1 }, ?_, not_failed_of_none (htakes.result.trans hr), ?_⟩
  · simp [Side.act, hr, hnext x hok]
  · have hdrop := drop_succ_lt hframe
    simp only [Side.work, Side.unwritten, htakes.sender, htakes.acks, htakes.result]
    omega

/-- **A side whose halves have joined acknowledges, reads the acknowledgement or returns.** -/
theorem moves_joined (hin : inbox <+: script peer cfg) (hr : s.result = none)
    (hf : Follows cfg peer s) (hj : s.joined = true)
    (hthere : .read ∈ s.acks.head? → s.taken < inbox.length) :
    Moves cfg peer ingest inbox closed s := by
  cases hacks : s.acks with
  | nil =>
    obtain ⟨⟨total, hsender⟩, received, stored, hreceiver⟩ := joined_iff.mp hj
    refine ⟨.finish, { s with
      result := some (.ok ⟨total, received, stored, cfg.capabilities.peer⟩) }, ?_, nofun, ?_⟩
    · simp [Side.act, hr, hacks, hsender, hreceiver]
    · simp only [Side.work, Side.unwritten, hsender, hr, Option.isNone_some, Option.isNone_none,
        Bool.false_eq_true, if_false, if_true]
      omega
  | cons a rest =>
    have hnot := (hf.ack_next hacks).2
    cases a with
    | send =>
      refine ⟨.sendAck, { s with acks := rest, out := s.out ++ [.ack] }, ?_, not_failed_of_none hr, ?_⟩
      · simp [Side.act, hr, hacks, hj]
      · have hj' : ({ s with acks := rest, out := s.out ++ [.ack] } : Side S).joined = true := hj
        simp only [Side.work, unwritten_of_joined hj, unwritten_of_joined hj', hacks, hnot,
          mem_cons_self, if_true, if_false, length_cons, length_nil]
        omega
    | read =>
      have hread : .read ∈ s.acks := hacks ▸ mem_cons_self
      have hlt : s.taken < inbox.length := hthere (by rw [hacks]; rfl)
      have hdrop := (reads_of_joined hf hj).1
      rw [if_pos hread] at hdrop
      obtain ⟨frame, hframe, hnext⟩ := readNext_of_lt closed hin hlt fun frame =>
        if frame = .ack then ({ s with acks := rest }, none)
        else (s, some (.protocol
          "peer sent another data-phase frame instead of the completion acknowledgement"))
      have hack := drop_eq_cons hframe
      rw [hdrop] at hack
      obtain ⟨rfl, -⟩ := List.cons.inj hack
      refine ⟨.readAck, { s with acks := rest, taken := s.taken + 1 }, ?_, not_failed_of_none hr, ?_⟩
      · simpa [Side.act, hr, hacks, hj] using hnext _ (if_pos rfl)
      · have hj' : ({ s with acks := rest, taken := s.taken + 1 } : Side S).joined = true := hj
        have hless := drop_succ_lt hframe
        simp only [Side.work, unwritten_of_joined hj, unwritten_of_joined hj', hacks,
          mem_cons, reduceCtorEq, false_or]
        omega

end Work

/-! ## 2. No deadlock -/

section System

variable {S : Type} {cfg : AuthRole → Config} {ingest : IngestInto S} {stores : AuthRole → S}
  {s s' : System S} {me : AuthRole}

/-- The side can go on, as the other stands. -/
def System.Moves (cfg : AuthRole → Config) (ingest : IngestInto S) (s : System S) (me : AuthRole) :
    Prop :=
  EntrySync.Moves (cfg me) (cfg me.other) ingest (s me.other).out (s me.other).closed (s me)

/-- **A side that waits**: it has read all the other wrote, and what it waits for is still to come.
    -/
structure Waits (cfg peer : Config) (inbox : List Frame) (s : Side S) : Prop where
  running : s.result = none
  caughtUp : inbox.length ≤ s.taken
  /-- its sender has finished, or waits for the hello -/
  sender : (∃ total, s.sender = .finished total) ∨ s.sender = .awaiting ∧ s.taken = 0
  /-- its receiver has the peer's `Done` before it, or the acknowledgement comes first -/
  receiver : 2 ≤ ((script peer cfg).drop s.taken).length ∨
    s.joined = true ∧ .read ∈ s.acks.head? ∧ (script peer cfg).drop s.taken = [.ack]

theorem waits_of_not_moves (hstore : ∀ st bytes, (ingest st bytes).isSome) (hkept : Kept cfg s)
    (hc : Honest cfg) (me : AuthRole) (hf : Follows (cfg me) (cfg me.other) (s me))
    (hr : (s me).result = none) (hno : ¬ s.Moves cfg ingest me) :
    Waits (cfg me) (cfg me.other) (s me.other).out (s me) := by
  have hin : (s me.other).out <+: script (cfg me.other) (cfg me) := by
    have hother := hkept.written me.other
    rw [other_other] at hother
    exact ⟨_, hother⟩
  have hsender : (∃ total, (s me).sender = .finished total) ∨
      (s me).sender = .awaiting ∧ (s me).peerHave = none := by
    cases hs : (s me).sender with
    | hello => exact absurd (moves_sender hr hf (.inl hs)) hno
    | awaiting =>
      cases hp : (s me).peerHave with
      | none => exact .inr ⟨rfl, rfl⟩
      | some holds => exact absurd (moves_sender hr hf (.inr (.inl ⟨hs, by rw [hp]; rfl⟩))) hno
    | streaming total rest => exact absurd (moves_sender hr hf (.inr (.inr ⟨total, rest, hs⟩))) hno
    | finished total => exact .inl ⟨total, rfl⟩
  have hcaught : (∀ received stored, (s me).receiver ≠ .finished received stored) →
      (s me.other).out.length ≤ (s me).taken := by
    intro hopen
    by_contra hlt
    exact hno (moves_read hstore (hc.agrees me) hin hr hf hopen (Nat.lt_of_not_le hlt))
  cases hf.reads with
  | hello hrecv ht _ =>
    have hle := hcaught (by rw [hrecv]; nofun)
    refine ⟨hr, hle, hsender.imp_right fun h => ⟨h.1, ht⟩, .inl ?_⟩
    rw [ht]
    simp [script]
  | pages _ _ _ _ hrecv rest ht _ _ _ _ hp =>
    have hle := hcaught (by rw [hrecv]; nofun)
    refine ⟨hr, hle, .inl (hsender.resolve_right fun h => ?_), .inl ?_⟩
    · rw [hp] at h
      cases h.2
    · rw [ht]
      simp
  | finished received stored hrecv ht _ hp =>
    obtain ⟨total, hfin⟩ := hsender.resolve_right fun h => by
      rw [hp] at h
      cases h.2
    have hj : (s me).joined = true := joined_iff.mpr ⟨⟨total, hfin⟩, received, stored, hrecv⟩
    have hwait : .read ∈ (s me).acks.head? ∧ (s me.other).out.length ≤ (s me).taken := by
      by_contra hgo
      refine hno (moves_joined hin hr hf hj fun hread => ?_)
      by_contra hlt
      exact hgo ⟨hread, Nat.le_of_not_lt hlt⟩
    refine ⟨hr, hwait.2, .inl ⟨total, hfin⟩, .inr ⟨hj, hwait.1, ?_⟩⟩
    rw [ht, if_pos (mem_of_mem_head? hwait.1)]

theorem Waits.unwritten (hkept : Kept cfg s) (h : Waits (cfg me) (cfg me.other) (s me.other).out (s me)) :
    (s me.other).unwritten (cfg me.other) (cfg me) =
      (script (cfg me.other) (cfg me)).drop (s me).taken := by
  have hother := hkept.written me.other
  rw [other_other] at hother
  have hlen : (s me).taken = (s me.other).out.length := Nat.le_antisymm (hkept.taken me) h.caughtUp
  rw [← hother, hlen, drop_left]

theorem not_both_wait (hkept : Kept cfg s) (hc : Honest cfg)
    (hfollows : ∀ me, Follows (cfg me) (cfg me.other) (s me))
    (h : ∀ me, Waits (cfg me) (cfg me.other) (s me.other).out (s me)) : False := by
  -- a sender that waits for the hello has written its own, so the other has read it
  have hfinished : ∀ me, ∃ total, (s me).sender = .finished total := by
    intro me
    refine (h me).sender.resolve_right fun hawait => ?_
    have hle := (h me).caughtUp
    rw [hawait.2] at hle
    have hnil : (s me.other).out = [] := length_eq_zero_iff.mp (Nat.le_zero.mp hle)
    have hother := hkept.written me.other
    rw [hnil, other_other, nil_append] at hother
    have hlen := congrArg List.length hother
    rcases (h me.other).sender with hfin | ⟨hwait, -⟩
    · rw [unwritten_of_finished hfin] at hlen
      split at hlen <;> simp [script] at hlen
    · simp [Side.unwritten, hwait, script] at hlen
  have hlast : ∀ me, ((s me.other).unwritten (cfg me.other) (cfg me)).length ≤ 1 := by
    intro me
    rw [unwritten_of_finished (hfinished me.other)]
    split <;> simp
  -- so both have joined and wait for the acknowledgement, which the dialer gives first
  have hread : ∀ me, .read ∈ (s me).acks.head? := by
    intro me
    rcases (h me).receiver with htwo | ⟨-, hread, -⟩
    · have hle := hlast me
      rw [(h me).unwritten hkept] at hle
      omega
    · exact hread
  have hsuffix := (hfollows .dialer).ackOrder
  rw [hc.role] at hsuffix
  have hsend : .send ∈ (s .dialer).acks := by
    have hun := (h .acceptor).unwritten hkept
    rcases (h .acceptor).receiver with htwo | ⟨-, -, hdrop⟩
    · have hle := hlast .acceptor
      rw [hun] at hle
      omega
    by_contra hno
    have hnil : (s .dialer).unwritten (cfg .dialer) (cfg .acceptor) = [] :=
      (unwritten_of_finished (hfinished .dialer)).trans (if_neg hno)
    exact cons_ne_nil _ _ (hdrop.symm.trans (hun.symm.trans hnil))
  have hdialer := hread .dialer
  generalize (s .dialer).acks = acks at hsuffix hsend hdialer
  simp only [AuthRole.acknowledgeInOrder, suffix_cons_iff, suffix_nil] at hsuffix
  rcases hsuffix with rfl | rfl | rfl
  · cases hdialer
  · simp at hsend
  · cases hsend

theorem one_moves (hstore : ∀ st bytes, (ingest st bytes).isSome) (hc : Honest cfg)
    (hkept : Kept cfg s) (hok : ∀ me, ¬ (s me).Failed)
    (hr : (s me).result = none) : ∃ you, s.Moves cfg ingest you := by
  by_contra hstuck
  rw [not_exists] at hstuck
  have hfollows := fun you => (hkept.stays you).running (not_exists.mp (hok you))
  have hwaits : ∀ you, (s you).result = none →
      Waits (cfg you) (cfg you.other) (s you.other).out (s you) := fun you hrun =>
    waits_of_not_moves hstore hkept hc you (hfollows you) hrun (hstuck you)
  have hother : (s me.other).result = none := by
    rcases (hfollows me.other).returned with hnone | ⟨hj, hacks, -⟩
    · exact hnone
    -- a side that returned has written what this one waits for
    have hun := (hwaits me hr).unwritten hkept
    rw [unwritten_of_joined hj, hacks, if_neg not_mem_nil] at hun
    rcases (hwaits me hr).receiver with htwo | ⟨-, -, hdrop⟩
    · rw [← hun] at htwo
      cases htwo
    · rw [hdrop] at hun
      cases hun
  refine not_both_wait hkept hc hfollows fun you => hwaits you ?_
  rcases eq_or_other me you with rfl | rfl
  · exact hr
  · exact hother

/-- The second state is reached from the first by actions of the sides. -/
def Leads (cfg : AuthRole → Config) (ingest : IngestInto S) : System S → System S → Prop :=
  Relation.ReflTransGen fun s s' => ∃ you a, s.step cfg ingest you a = some s'

theorem Reachable.leads {s' : System S} (h : Reachable cfg ingest stores s) (hs : Leads cfg ingest s s') :
    Reachable cfg ingest stores s' := by
  induction hs with
  | refl => exact h
  | tail _ hstep ih =>
    obtain ⟨you, a, hstep⟩ := hstep
    exact ih.step you a hstep

theorem session_ends (hstore : ∀ st bytes, (ingest st bytes).isSome) (hc : Honest cfg)
    (h : Reachable cfg ingest stores s) (hok : ∀ me, ¬ (s me).Failed) :
    ∃ s', Leads cfg ingest s s' ∧ ∀ me, ∃ report, (s' me).result = some (.ok report) := by
  -- on the work left to both
  generalize hwork : (s .dialer).work (cfg .dialer) (cfg .acceptor) +
    (s .acceptor).work (cfg .acceptor) (cfg .dialer) = work
  induction work using Nat.strong_induction_on generalizing s with
  | _ work ih =>
    have hkept := h.kept hc
    by_cases hdone : ∀ me, (s me).result ≠ none
    · refine ⟨s, .refl, fun me => ?_⟩
      rcases ((hkept.stays me).running (not_exists.mp (hok me))).returned with hnone | ⟨-, -, hreport⟩
      · exact absurd hnone (hdone me)
      · exact hreport
    · obtain ⟨me, hr⟩ := not_forall_not.mp hdone
      obtain ⟨you, a, x, hact, hx, hless⟩ := one_moves hstore hc hkept hok hr
      have hstep : s.step cfg ingest you a = some (Function.update s you x) := by
        unfold System.step
        rw [hact]
        rfl
      have hok' : ∀ me, ¬ (Function.update s you x me).Failed := fun me => by
        rcases eq_or_other you me with rfl | rfl
        · rwa [Function.update_self]
        · rw [Function.update_of_ne (other_ne you)]
          exact hok _
      have hlt : (Function.update s you x .dialer).work (cfg .dialer) (cfg .acceptor) +
          (Function.update s you x .acceptor).work (cfg .acceptor) (cfg .dialer) < work := by
        rw [← hwork]
        cases you with
        | dialer => exact Nat.add_lt_add_right hless _
        | acceptor => exact Nat.add_lt_add_left hless _
      obtain ⟨s', hleads, hreturned⟩ := ih _ hlt (h.step you a hstep) hok' rfl
      exact ⟨s', hleads.head ⟨you, a, hstep⟩, hreturned⟩

/-- What a side has taken of the other's snapshot once the session is over. -/
structure Converged (cfg : AuthRole → Config) (s : System S) (me : AuthRole) : Prop where
  /-- every entry of the other's snapshot that this side's lacks, if the other may push -/
  all : (cfg me.other).capabilities.local.canPush = true → ∀ e ∈ (cfg me.other).snapshot,
    e.1 ∉ (cfg me).snapshot.map (·.1) → e.2 ∈ (s me).ingested
  /-- and nothing otherwise -/
  none : (cfg me.other).capabilities.local.canPush = false → (s me).ingested = []

/-- **A session of two honest peers without a throttle converges.** No side is refused for pushing, a
    protocol error comes only where a side failed for reasons of its own, and once one side has ended
    without an error, each has ingested all it lacked of what the other may push. -/
theorem entry_session_converges (hpeers : Peers cfg) (hfree : ∀ me, (cfg me).egress = none)
    (h : Reachable cfg ingest stores s) :
    (∀ me, (s me).result ≠ some (.error .unauthorizedPush)) ∧
      (∀ me why, (s me).result = some (.error (.protocol why)) → Broken s) ∧
      (∀ you report, (s you).result = some (.ok report) → ∀ me, Converged cfg s me) ∧
      ∀ me, (∀ page ∈ (s me).pagesOut, page ≠ []) ∧
        (s me).pagesOut.flatten <+:
          ((cfg me).snapshot.filter fun e => e.1 ∉ (cfg me.other).inventory).map (·.2) := by
  have hkept := h.kept hpeers.honest
  have hsend : ∀ me holds, (cfg me).toSend holds = (cfg me).offered holds := by
    intro me holds
    unfold Config.toSend
    rw [hfree me]
  refine ⟨fun me hr => ?_, fun me why hr => (hkept.error hr).1, fun you report hr me => ?_,
    fun me => ?_⟩
  · rcases (hkept.error hr).2 with hfault | htrunc
    · cases hfault
    · cases htrunc
  · have hall := hkept.complete hr me
    rw [hsend] at hall
    refine ⟨fun hpush e he hlack => ?_, fun hpush => ?_⟩
    · rw [hall]
      exact mem_offered hpush he hlack
    · rw [hall]
      exact offered_of_not_push hpush _
  · obtain ⟨hne, hinit⟩ := hkept.pagesOut me
    refine ⟨hne, hinit.trans ?_⟩
    rw [hsend]
    cases hpush : (cfg me).capabilities.local.canPush with
    | true => rw [offered_of_push hpush]
    | false =>
      rw [offered_of_not_push hpush]
      exact List.nil_prefix

end System

/-- Two owners of one account: the dialer holds the entries 1 and 2, the acceptor 2 and 3. -/
def pair (me : AuthRole) : Config where
  role := me
  accountId := 9
  capabilities := ⟨.readWrite, .readWrite⟩
  snapshot := match me with
    | .dialer => [(1, [1]), (2, [2])]
    | .acceptor => [(2, [2]), (3, [3])]
  egress := none
  entriesPerSession := 1000000

/-- A store that keeps every entry. -/
def keepAll : IngestInto (List Bytes) := fun store bytes => some (.stored, store ++ [bytes])

theorem runAuthPhase_owners : runAuthPhase ⟨9, .closed, some .readWrite, some (.granted .readWrite)⟩
    ⟨9, .closed, some .readWrite, some (.granted .readWrite)⟩ =
      .ok fun _ => ⟨.readWrite, .readWrite⟩ := by
  show Except.ok _ = Except.ok _
  congr 1
  funext me
  cases me <;> rfl

theorem peers_pair : Peers pair where
  role _ := rfl
  account _ := rfl
  authenticated := ⟨_, _, runAuthPhase_owners⟩
  bound me := by cases me <;> decide

/-- Both sides return, and each has what it lacked. -/
theorem entry_session_converges_pair :
    ∃ s, Reachable pair keepAll (fun _ => []) s ∧ (∀ me, (s me).result.isSome) ∧
      ∀ me, Converged pair s me := by
  obtain ⟨s, hleads, hok⟩ := session_ends (fun _ _ => rfl) peers_pair.honest
    (Reachable.start : Reachable pair keepAll (fun _ => []) _) fun _ => nofun
  have hreach := Reachable.start.leads hleads
  obtain ⟨report, hreport⟩ := hok .dialer
  refine ⟨s, hreach, fun me => ?_, fun me => ?_⟩
  · obtain ⟨report, hreport⟩ := hok me
    exact Option.isSome_iff_exists.mpr ⟨_, hreport⟩
  · exact (entry_session_converges peers_pair (fun _ => rfl) hreach).2.2.1 .dialer report hreport me

end RagRat.EntrySync
