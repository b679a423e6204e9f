/-
  File:      RagRat/EntrySync/Transfer.lean
  Subject:   THE SCRIPTS OF AN ENTRY SESSION. Each side writes a prefix of one script -- a hello, its pages,
             `Done`, the acknowledgement -- and reads a prefix of the other's, whatever the
             interleaving; so neither side finds a frame out of order, and a side that returns has read
             an acknowledgement, which the other writes only after it took everything.

  * `pages`, `script` -- what an honest side writes in a whole session;
  * `Follows` -- where a side stands in its own script and in the other's; every action keeps it;
  * `Kept.error` -- without a fault on either side there is no error on either;
  * `Kept.complete` -- a side that returned took all the other sends, and so did the other.
-/
import Mathlib.Data.List.Infix
import RagRat.EntrySync.Session

namespace RagRat.EntrySync

open List
open Lib.Cbor (Bytes)
open Function Option

variable {peer c : Config} {peerFailed : Prop} {why : SessionError} {role me : AuthRole}
  {a : Action} {inbox frames out : List Frame} {dialer acceptor : AuthSide}
  {caps : AuthRole → SessionCapabilities}

/-! ## 1. Pages and scripts -/

theorem pageLength_pos (rest : List Bytes) : 0 < pageLength rest := by
  unfold pageLength
  omega

/-- All pages of what is to be sent. -/
def pages (rest : List Bytes) : List Frame :=
  if rest = [] then [] else nextPage rest :: pages (rest.drop (pageLength rest))
termination_by rest.length
decreasing_by
  have hpos := pageLength_pos rest
  have hlen : 0 < rest.length := length_pos_iff.mpr ‹_›
  rw [length_drop]
  omega

theorem pages_nil : pages [] = [] := by
  rw [pages, if_pos rfl]

theorem pages_of_ne_nil {rest : List Bytes} (h : rest ≠ []) :
    pages rest = nextPage rest :: pages (rest.drop (pageLength rest)) := by
  rw [pages, if_neg h]

/-- Everything a side writes in a session with this peer. -/
def script (cfg peer : Config) : List Frame :=
  .hello cfg.accountId cfg.inventory :: (pages (cfg.toSend peer.inventory) ++ [.done, .ack])

/-- The entries of a frame. -/
def Frame.page : Frame → Option (List Bytes)
  | .entries page _ => some page
  | _ => none

theorem pages_spec (rest : List Bytes) :
    (∀ page ∈ (pages rest).filterMap Frame.page, page ≠ []) ∧
      ((pages rest).filterMap Frame.page).flatten = rest := by
  fun_induction pages rest with
  | case1 => simp
  | case2 rest hne ih =>
    have hpage : (nextPage rest).page = some (rest.take (pageLength rest)) := rfl
    rw [filterMap_cons_some hpage]
    refine ⟨fun page hmem => ?_, ?_⟩
    · rcases mem_cons.mp hmem with rfl | hmem
      · intro hnil
        rcases take_eq_nil_iff.mp hnil with hzero | hnil
        · exact absurd hzero (pageLength_pos rest).ne'
        · exact hne hnil
      · exact ih.1 page hmem
    · rw [flatten_cons, ih.2, take_append_drop]

theorem offered_length (cfg : Config) (holds : List Bytes32) :
    (cfg.offered holds).length ≤ cfg.snapshot.length := by
  unfold Config.offered
  split
  · rw [length_map]
    exact length_filter_le _ _
  · exact Nat.zero_le _

theorem toSend_initial (cfg : Config) (holds : List Bytes32) :
    cfg.toSend holds <+: cfg.offered holds := by
  unfold Config.toSend
  split
  · exact List.prefix_rfl
  · exact List.take_prefix _ _

theorem canPush_of_toSend {cfg : Config} {holds : List Bytes32} (h : cfg.toSend holds ≠ []) :
    cfg.capabilities.local.canPush = true := by
  by_contra hno
  refine h (List.prefix_nil.mp ?_)
  have hinit := toSend_initial cfg holds
  unfold Config.offered at hinit
  rw [if_neg hno] at hinit
  exact hinit

/-! ## 2. Where a side stands -/

/-- One account, both roles, capabilities that agree, and no more to send than the other takes. -/
structure Honest (cfg : AuthRole → Config) : Prop where
  role : ∀ me, (cfg me).role = me
  account : ∀ me, (cfg me.other).accountId = (cfg me).accountId
  push : ∀ me, (cfg me.other).capabilities.local.canPush = true →
    (cfg me).capabilities.peer.canPush = true
  bound : ∀ me, ((cfg me.other).toSend (cfg me).inventory).length ≤ (cfg me).entriesPerSession

section Follow

variable {S : Type} {cfg : Config} {ingest : IngestInto S} {s s' : Side S}

/-- What the side has still to write. -/
def Side.unwritten (cfg peer : Config) (s : Side S) : List Frame :=
  match s.sender with
  | .hello => script cfg peer
  | .awaiting => pages (cfg.toSend peer.inventory) ++ [.done, .ack]
  | .streaming _ rest => pages rest ++ [.done, .ack]
  | .finished _ => if .send ∈ s.acks then [.ack] else []

/-- **Where the receiver stands in the peer's script.** -/
inductive Reads (cfg peer : Config) (s : Side S) : Prop where
  | hello (hr : s.receiver = .hello) (ht : s.taken = 0) (hi : s.ingested = [])
  | pages (received newlyStored : Nat) (sawPage sawFinal : Bool)
      (hr : s.receiver = .pages received newlyStored sawPage sawFinal) (rest : List Bytes)
      (ht : (script peer cfg).drop s.taken = EntrySync.pages rest ++ [.done, .ack])
      (hi : s.ingested ++ rest = peer.toSend cfg.inventory) (hc : received = s.ingested.length)
      (hfinal : sawFinal = true → rest = []) (hmore : sawPage = true → sawFinal = false → rest ≠ [])
      (hp : s.peerHave = some peer.inventory)
  | finished (received newlyStored : Nat) (hr : s.receiver = .finished received newlyStored)
      (ht : (script peer cfg).drop s.taken = if .read ∈ s.acks then [.ack] else [])
      (hi : s.ingested = peer.toSend cfg.inventory) (hp : s.peerHave = some peer.inventory)

/-- **A side that has not failed follows the scripts**, its own and the peer's. -/
structure Follows (cfg peer : Config) (s : Side S) : Prop where
  reads : Reads cfg peer s
  inventory : ∀ holds, s.peerHave = some holds → holds = peer.inventory
  acks : s.acks = cfg.role.acknowledgeInOrder ∨
    s.joined = true ∧ s.acks <:+ cfg.role.acknowledgeInOrder
  returned : s.result = none ∨ s.joined = true ∧ s.acks = [] ∧ ∃ report, s.result = some (.ok report)

/-- The receiver's bookkeeping moved, nothing of the sender's. -/
structure Side.Takes (s s' : Side S) : Prop where
  sender : s'.sender = s.sender
  acks : s'.acks = s.acks
  out : s'.out = s.out
  taken : s'.taken = s.taken
  result : s'.result = s.result

theorem Side.Takes.refl (s : Side S) : s.Takes s := ⟨rfl, rfl, rfl, rfl, rfl⟩

theorem receiveEntries_takes (ingest : IngestInto S) (s : Side S) (entries : List Bytes)
    (received newlyStored : Nat) (hcap : received + entries.length ≤ cfg.entriesPerSession) :
    ∃ s', s.Takes s' ∧ s'.receiver = s.receiver ∧ s'.peerHave = s.peerHave ∧
      (receiveEntries cfg ingest entries received newlyStored s = (s', .error .store) ∨
        s'.ingested = s.ingested ++ entries ∧ ∃ stored,
          receiveEntries cfg ingest entries received newlyStored s =
            (s', .ok (received + entries.length, stored))) := by
  induction entries generalizing received newlyStored s with
  | nil => exact ⟨s, .refl s, rfl, rfl, .inr ⟨(append_nil _).symm, newlyStored, rfl⟩⟩
  | cons bytes later ih =>
    rw [length_cons] at hcap
    simp only [receiveEntries]
    rw [if_neg (by omega)]
    cases hing : ingest s.store bytes with
    | none => exact ⟨s, .refl s, rfl, rfl, .inl rfl⟩
    | some p =>
      obtain ⟨outcome, store⟩ := p
      obtain ⟨s', htakes, hrecv, hpeer, hend⟩ := ih
        { s with store := store, ingested := s.ingested ++ [bytes] } (received + 1)
        (newlyStored + if outcome = .stored then 1 else 0) (by omega)
      refine ⟨s', ⟨htakes.sender, htakes.acks, htakes.out, htakes.taken, htakes.result⟩, hrecv, hpeer,
        hend.imp id ?_⟩
      rintro ⟨hingested, stored, hrun⟩
      refine ⟨?_, stored, ?_⟩
      · rw [hingested, append_assoc]
        rfl
      · have hcount : received + 1 + later.length = received + (bytes :: later).length := by
          rw [length_cons]
          omega
        exact hrun.trans (by rw [hcount])

theorem drop_eq_cons {α : Type} {l : List α} {n : Nat} {a : α} (h : l[n]? = some a) :
    l.drop n = a :: l.drop (n + 1) := by
  obtain ⟨hn, rfl⟩ := List.getElem?_eq_some_iff.mp h
  exact drop_eq_getElem_cons hn

/-- What the receiver makes of the next frame: it stands one further, or its store failed. -/
def TakesFrame (cfg peer : Config) (ingest : IngestInto S) (frame : Frame) (s : Side S) : Prop :=
  ∃ s', s.Takes s' ∧ (receive cfg ingest frame s = (s', some .store) ∨ receive cfg ingest frame s = (s', none) ∧
    Reads cfg peer { s' with taken := s.taken + 1 } ∧ s'.peerHave = some peer.inventory)

theorem takes_hello (ingest : IngestInto S) (hacct : peer.accountId = cfg.accountId) (hr : s.receiver = .hello)
    (ht : s.taken = 0) (hi : s.ingested = []) :
    TakesFrame cfg peer ingest (.hello peer.accountId peer.inventory) s := by
  refine ⟨{ s with peerHave := some peer.inventory, receiver := .pages 0 0 false false },
    ⟨rfl, rfl, rfl, rfl, rfl⟩, .inr ⟨?_, ?_, rfl⟩⟩
  · unfold receive
    rw [hr]
    simp only [hacct, ne_eq, not_true_eq_false, if_false]
  · refine .pages 0 0 false false rfl (peer.toSend cfg.inventory) ?_ ?_ ?_ nofun nofun rfl
    · show (script peer cfg).drop (s.taken + 1) = _
      rw [ht]
      rfl
    · show s.ingested ++ _ = _
      rw [hi]
      rfl
    · show 0 = s.ingested.length
      rw [hi]
      rfl

section Pages

variable {received newlyStored : Nat} {sawPage sawFinal : Bool}
  (hr : s.receiver = .pages received newlyStored sawPage sawFinal) (hp : s.peerHave = some peer.inventory)

include hr hp

theorem takes_done (ingest : IngestInto S) (ht : (script peer cfg).drop (s.taken + 1) = [.ack])
    (hi : s.ingested = peer.toSend cfg.inventory) (hend : (sawPage && !sawFinal) = false) (hack : .read ∈ s.acks) :
    TakesFrame cfg peer ingest .done s := by
  refine ⟨{ s with receiver := .finished received newlyStored }, ⟨rfl, rfl, rfl, rfl, rfl⟩, .inr ⟨?_, ?_, hp⟩⟩
  · unfold receive
    rw [hr]
    simp only [hend, Bool.false_eq_true, if_false]
  · refine .finished received newlyStored rfl ?_ hi hp
    show (script peer cfg).drop (s.taken + 1) = if .read ∈ s.acks then [.ack] else []
    rw [if_pos hack, ht]

theorem takes_page (ingest : IngestInto S) {rest : List Bytes} (hrest : rest ≠ [])
    (hpush : peer.capabilities.local.canPush = true → cfg.capabilities.peer.canPush = true)
    (hbound : (peer.toSend cfg.inventory).length ≤ cfg.entriesPerSession)
    (ht : (script peer cfg).drop (s.taken + 1) = pages (rest.drop (pageLength rest)) ++ [.done, .ack])
    (hi : s.ingested ++ rest = peer.toSend cfg.inventory) (hc : received = s.ingested.length)
    (hfinal : sawFinal = true → rest = []) : TakesFrame cfg peer ingest (nextPage rest) s := by
  have hsend : peer.toSend cfg.inventory ≠ [] := by
    rw [← hi]
    simp [hrest]
  have hcan := hpush (canPush_of_toSend hsend)
  have hfin : sawFinal = false := Bool.eq_false_iff.mpr fun hsaw => hrest (hfinal hsaw)
  have hempty : (rest.take (pageLength rest)).isEmpty = false := by
    rw [isEmpty_eq_false_iff, ne_eq, take_eq_nil_iff, not_or]
    exact ⟨(pageLength_pos rest).ne', hrest⟩
  have hcap : received + (rest.take (pageLength rest)).length ≤ cfg.entriesPerSession := by
    rw [← hi, length_append] at hbound
    rw [length_take, hc]
    omega
  obtain ⟨s', htakes, -, hpeer, herr | ⟨hingested, stored, hok⟩⟩ :=
    receiveEntries_takes ingest s (rest.take (pageLength rest)) received newlyStored hcap
  · refine ⟨s', htakes, .inl ?_⟩
    unfold receive
    rw [hr]
    simp only [nextPage, hcan, hfin, hempty, Bool.true_eq_false, Bool.false_eq_true, if_false, herr]
  · refine ⟨{ s' with
        receiver := .pages (received + (rest.take (pageLength rest)).length) stored true
          (!(!(rest.drop (pageLength rest)).isEmpty)) },
      ⟨htakes.sender, htakes.acks, htakes.out, htakes.taken, htakes.result⟩,
      .inr ⟨?_, ?_, hpeer.trans hp⟩⟩
    · unfold receive
      rw [hr]
      simp only [nextPage, hcan, hfin, hempty, Bool.true_eq_false, Bool.false_eq_true, if_false, hok]
    refine .pages _ stored true _ rfl (rest.drop (pageLength rest)) ht ?_ ?_ (fun hsaw => by simpa using hsaw)
      (fun _ hsaw => by simpa using hsaw) (hpeer.trans hp)
    · show s'.ingested ++ _ = _
      rw [hingested, append_assoc, take_append_drop, hi]
    · show _ = s'.ingested.length
      rw [hingested, length_append, hc]

end Pages

theorem receive_script (ingest : IngestInto S) (hpush : peer.capabilities.local.canPush = true →
      cfg.capabilities.peer.canPush = true) (hacct : peer.accountId = cfg.accountId)
    (hbound : (peer.toSend cfg.inventory).length ≤ cfg.entriesPerSession)
    (h : Reads cfg peer s) (hopen : ∀ received stored, s.receiver ≠ .finished received stored)
    (hack : .read ∈ s.acks) {frame : Frame} (hf : (script peer cfg)[s.taken]? = some frame) :
    TakesFrame cfg peer ingest frame s := by
  cases h with
  | hello hr ht hi =>
    rw [ht] at hf
    cases hf
    exact takes_hello ingest hacct hr ht hi
  | pages received newlyStored sawPage sawFinal hr rest ht hi hc hfinal hmore hp =>
    have hnext := drop_eq_cons hf
    rw [ht] at hnext
    by_cases hrest : rest = []
    · subst hrest
      rw [pages_nil] at hnext
      obtain ⟨rfl, hdrop⟩ := List.cons.inj hnext
      refine takes_done hr hp ingest hdrop.symm ((append_nil _).symm.trans hi) ?_ hack
      refine Bool.eq_false_iff.mpr fun hsaw => ?_
      simp only [Bool.and_eq_true, Bool.not_eq_true'] at hsaw
      exact hmore hsaw.1 hsaw.2 rfl
    · rw [pages_of_ne_nil hrest, cons_append] at hnext
      obtain ⟨rfl, hdrop⟩ := List.cons.inj hnext
      exact takes_page hr hp ingest hrest hpush hbound hdrop.symm hi hc hfinal
  | finished received newlyStored hr => exact absurd hr (hopen received newlyStored)

/-! ## 3. Every action keeps to the scripts -/

/-- The error of a side that finds the peer's stream closed. -/
def truncated : SessionError :=
  .protocol "peer closed the stream before session completion — transfer truncated"

/-- The session may go on for this side, or a fault or a failed peer ended it. -/
inductive Stays (cfg peer : Config) (peerFailed : Prop) (s : Side S) : Prop where
  | follows (h : Follows cfg peer s)
  | fault (why : SessionError) (hr : s.result = some (.error why)) (hw : why.isFault = true)
      (hi : .send ∉ s.acks → s.ingested = peer.toSend cfg.inventory)
  | truncated (hr : s.result = some (.error EntrySync.truncated)) (hp : peerFailed)
      (hi : .send ∉ s.acks → s.ingested = peer.toSend cfg.inventory)

theorem Stays.running (h : Stays cfg peer peerFailed s) (hr : ∀ why, s.result ≠ some (.error why)) :
    Follows cfg peer s := by
  cases h with
  | follows hf => exact hf
  | fault why hres => exact absurd hres (hr why)
  | truncated hres => exact absurd hres (hr _)

theorem Stays.error (h : Stays cfg peer peerFailed s) (hr : s.result = some (.error why)) :
    why.isFault = true ∨ why = EntrySync.truncated ∧ peerFailed := by
  cases h with
  | follows hf =>
    rcases hf.returned with hnone | ⟨-, -, report, hok⟩
    · rw [hr] at hnone
      cases hnone
    · rw [hr] at hok
      cases hok
  | fault why' hr' hw =>
    rw [hr] at hr'
    cases hr'
    exact .inl hw
  | truncated hr' hp =>
    rw [hr] at hr'
    cases hr'
    exact .inr ⟨rfl, hp⟩

theorem Follows.ackOrder (h : Follows cfg peer s) : s.acks <:+ cfg.role.acknowledgeInOrder :=
  h.acks.elim (fun heq => heq ▸ suffix_rfl) And.right

theorem Follows.acks_of_not_joined (h : Follows cfg peer s) (hj : s.joined = false) :
    s.acks = cfg.role.acknowledgeInOrder :=
  h.acks.resolve_right fun hboth => Bool.noConfusion (hj.symm.trans hboth.1)

theorem mem_acknowledgeInOrder (role : AuthRole) (a : AckStep) : a ∈ role.acknowledgeInOrder := by
  cases role <;> cases a <;> decide

theorem Follows.ack_next {a : AckStep} {rest : List AckStep} (h : Follows cfg peer s)
    (hacks : s.acks = a :: rest) : rest <:+ cfg.role.acknowledgeInOrder ∧ a ∉ rest := by
  have horder := hacks ▸ h.ackOrder
  have hnodup : cfg.role.acknowledgeInOrder.Nodup := by cases cfg.role <;> decide
  exact ⟨(suffix_cons _ _).trans horder, (nodup_cons.mp (hnodup.sublist horder.sublist)).1⟩

theorem Reads.congr (h : Reads cfg peer s) (hr : s'.receiver = s.receiver) (ht : s'.taken = s.taken)
    (hi : s'.ingested = s.ingested) (hp : s'.peerHave = s.peerHave)
    (ha : .read ∈ s'.acks ↔ .read ∈ s.acks) : Reads cfg peer s' := by
  cases h with
  | hello hr' ht' hi' => exact .hello (hr.trans hr') (ht.trans ht') (hi.trans hi')
  | pages received stored sawPage sawFinal hr' rest ht' hi' hc hfinal hmore hp' =>
    exact .pages received stored sawPage sawFinal (hr.trans hr') rest (ht ▸ ht') (hi ▸ hi') (hi ▸ hc)
      hfinal hmore (hp.trans hp')
  | finished received stored hr' ht' hi' hp' =>
    refine .finished received stored (hr.trans hr') ?_ (hi.trans hi') (hp.trans hp')
    rw [ht, ht']
    simp only [ha]

theorem joined_iff : s.joined = true ↔ (∃ total, s.sender = .finished total) ∧
    ∃ received stored, s.receiver = .finished received stored := by
  unfold Side.joined
  cases s.sender <;> cases s.receiver <;> simp

theorem not_joined (h : (∀ total, s.sender ≠ .finished total) ∨
    ∀ received stored, s.receiver ≠ .finished received stored) : s.joined = false := by
  refine Bool.eq_false_iff.mpr fun hj => ?_
  obtain ⟨⟨total, hs⟩, received, stored, hr⟩ := joined_iff.mp hj
  exact h.elim (fun h => h total hs) fun h => h received stored hr

theorem Reads.more (h : Reads cfg peer s)
    (hopen : (∀ received stored, s.receiver ≠ .finished received stored) ∨ .read ∈ s.acks) :
    (script peer cfg).drop s.taken ≠ [] := by
  cases h with
  | hello _ ht _ =>
    rw [ht]
    exact cons_ne_nil _ _
  | pages _ _ _ _ _ rest ht =>
    rw [ht]
    simp
  | finished received stored hr ht =>
    rcases hopen with hopen | hread
    · exact absurd hr (hopen received stored)
    · rw [ht, if_pos hread]
      exact cons_ne_nil _ _

theorem unwritten_of_finished (h : ∃ total, s.sender = .finished total) :
    s.unwritten cfg peer = if .send ∈ s.acks then [.ack] else [] := by
  obtain ⟨total, hs⟩ := h
  unfold Side.unwritten
  rw [hs]

theorem unwritten_of_joined (hj : s.joined = true) :
    s.unwritten cfg peer = if .send ∈ s.acks then [.ack] else [] :=
  unwritten_of_finished (joined_iff.mp hj).1

theorem reads_of_joined (h : Follows cfg peer s) (hj : s.joined = true) :
    (script peer cfg).drop s.taken = (if .read ∈ s.acks then [.ack] else []) ∧
      s.ingested = peer.toSend cfg.inventory ∧ s.peerHave = some peer.inventory ∧
        ∃ received stored, s.receiver = .finished received stored := by
  obtain ⟨-, received, stored, hr⟩ := joined_iff.mp hj
  cases h.reads with
  | hello hr' | pages _ _ _ _ hr' =>
    rw [hr] at hr'
    cases hr'
  | finished _ _ _ ht hi hp => exact ⟨ht, hi, hp, _, _, hr⟩

theorem Follows.acknowledged (h : Follows cfg peer s) (hs : .send ∉ s.acks) :
    s.joined = true ∧ s.ingested = peer.toSend cfg.inventory := by
  have hj := (h.acks.resolve_left fun heq => hs (heq ▸ mem_acknowledgeInOrder _ _)).1
  exact ⟨hj, (reads_of_joined h hj).2.1⟩

section Act

variable {closed : Bool}

theorem readNext_keeps {take : Frame → Side S × Option SessionError} (hin : inbox <+: script peer cfg)
    (hclosed : closed = true → peerFailed ∨ inbox = script peer cfg)
    (hmore : (script peer cfg).drop s.taken ≠ []) (hrun : s.readNext inbox closed take = some s') :
    (s' = s.fail truncated ∧ peerFailed) ∨
      ∃ frame, (script peer cfg)[s.taken]? = some frame ∧ s.taken < inbox.length ∧
        s' = match take frame with
          | (x, none) => { x with taken := s.taken + 1 }
          | (x, some why) => x.fail why := by
  unfold Side.readNext at hrun
  split at hrun
  · rename_i frame hframe
    refine .inr ⟨frame, ?_, (List.getElem?_eq_some_iff.mp hframe).1, ?_⟩
    · obtain ⟨rest, hrest⟩ := hin
      rw [← hrest]
      exact List.getElem?_append_left (List.getElem?_eq_some_iff.mp hframe).1 ▸ hframe
    · revert hrun
      rcases take frame with ⟨x, _ | why⟩
      · exact fun hrun => (some.inj hrun).symm
      · exact fun hrun => (some.inj hrun).symm
  · rename_i hnone
    split at hrun
    · rename_i hc
      refine .inl ⟨(some.inj hrun).symm, (hclosed hc).resolve_right fun hall => ?_⟩
      -- everything is written, and something is left to read
      rw [hall] at hnone
      exact hmore (drop_eq_nil_of_le (List.getElem?_eq_none_iff.mp hnone))
    · cases hrun

/-- **What an action does**: it keeps to the scripts, writes further and reads only what is there.
    -/
structure Acts (cfg peer : Config) (peerFailed : Prop) (inbox : List Frame) (s s' : Side S) : Prop where
  written : s'.out ++ s'.unwritten cfg peer = script cfg peer
  out : s.out <+: s'.out
  taken : s.taken ≤ inbox.length → s'.taken ≤ inbox.length
  stays : Stays cfg peer peerFailed s'

theorem Follows.writes (h : Follows cfg peer s) (hr : s.result = none)
    (hs : ∀ total, s.sender ≠ .finished total) {sender : SenderState} (hout : out = s.out ++ frames)
    (hw : s.out ++ s.unwritten cfg peer = script cfg peer) (hnext : s.unwritten cfg peer =
      frames ++ Side.unwritten cfg peer { s with sender := sender, out := out }) :
    Acts cfg peer peerFailed inbox s { s with sender := sender, out := out } := by
  subst hout
  refine ⟨?_, List.prefix_append _ _, id, .follows ⟨h.reads.congr rfl rfl rfl rfl Iff.rfl,
    h.inventory, .inl (h.acks_of_not_joined (not_joined (.inl hs))), .inl hr⟩⟩
  rw [append_assoc, ← hnext]
  exact hw

/-- What the peer is, as far as this side depends on it. -/
structure Agrees (cfg peer : Config) : Prop where
  account : peer.accountId = cfg.accountId
  push : peer.capabilities.local.canPush = true → cfg.capabilities.peer.canPush = true
  bound : (peer.toSend cfg.inventory).length ≤ cfg.entriesPerSession

variable (hc : Agrees cfg peer) (hin : inbox <+: script peer cfg)
  (hclosed : closed = true → peerFailed ∨ inbox = script peer cfg)
  (hw : s.out ++ s.unwritten cfg peer = script cfg peer) (h : Follows cfg peer s)

include hc hin hclosed hw h

theorem read_keeps (hr : s.result = none)
    (hopen : ∀ received stored, s.receiver ≠ .finished received stored)
    (hrun : s.readNext inbox closed (fun frame => receive cfg ingest frame s) = some s') :
    Acts cfg peer peerFailed inbox s s' := by
  have hacks := h.acks_of_not_joined (not_joined (.inr hopen))
  have hread : .read ∈ s.acks := hacks ▸ mem_acknowledgeInOrder _ _
  rcases readNext_keeps hin hclosed (h.reads.more (.inl hopen)) hrun with
    ⟨rfl, hfailed⟩ | ⟨frame, hframe, hthere, rfl⟩
  · exact ⟨hw, List.prefix_rfl, id, .truncated rfl hfailed fun hs => (h.acknowledged hs).2⟩
  obtain ⟨x, htakes, hend⟩ :=
    receive_script ingest hc.push hc.account hc.bound h.reads hopen hread hframe
  have hunwritten : ∀ y : Side S, y.sender = x.sender → y.acks = x.acks → y.out = x.out →
      y.out ++ y.unwritten cfg peer = script cfg peer := by
    intro y hs ha ho
    rw [ho, htakes.out]
    unfold Side.unwritten at hw ⊢
    rw [hs, ha, htakes.sender, htakes.acks]
    exact hw
  rcases hend with herr | ⟨hok, hreads, hpeer⟩
  · rw [herr]
    have hsend : .send ∈ x.acks := (htakes.acks.trans hacks) ▸ mem_acknowledgeInOrder _ _
    exact ⟨hunwritten _ rfl rfl rfl, htakes.out ▸ List.prefix_rfl, fun hle => htakes.taken ▸ hle,
      .fault .store rfl rfl fun hs => absurd hsend hs⟩
  · rw [hok]
    refine ⟨hunwritten _ rfl rfl rfl, htakes.out ▸ List.prefix_rfl, fun _ => hthere,
      .follows ⟨hreads, fun holds hh => ?_, .inl ?_, .inl ?_⟩⟩
    · exact (some.inj (hpeer.symm.trans hh)).symm
    · exact htakes.acks.trans hacks
    · exact htakes.result.trans hr

theorem act_keeps (hrun : s.act cfg ingest inbox closed a = some s') :
    Acts cfg peer peerFailed inbox s s' := by
  unfold Side.act at hrun
  split at hrun
  · cases hrun
  rename_i hres
  have hr : s.result = none := not_isSome_iff_eq_none.mp hres
  cases a with
  | writeHello =>
    simp only at hrun
    split at hrun
    · rename_i hsender
      cases hrun
      refine h.writes hr (by rw [hsender]; nofun) rfl hw ?_
      simp only [Side.unwritten, hsender]
      rfl
    · cases hrun
  | takeInventory =>
    simp only at hrun
    split at hrun
    · rename_i holds hsender hpeer
      cases hrun
      obtain rfl := h.inventory holds hpeer
      refine h.writes hr (by rw [hsender]; nofun) (append_nil _).symm hw ?_
      simp only [Side.unwritten, hsender, nil_append]
    · cases hrun
  | writePage =>
    simp only at hrun
    split at hrun
    · rename_i total rest hsender
      split at hrun
      · cases hrun
      rename_i hne
      cases hrun
      refine h.writes hr (by rw [hsender]; nofun) rfl hw ?_
      simp only [Side.unwritten, hsender, pages_of_ne_nil (mt isEmpty_iff.mpr hne)]
      rfl
    · cases hrun
  | writeDone =>
    simp only at hrun
    split at hrun
    · rename_i total rest hsender
      split at hrun
      · rename_i hnil
        cases hrun
        have hs : ∀ total, s.sender ≠ .finished total := by rw [hsender]; nofun
        refine h.writes hr hs rfl hw ?_
        simp only [Side.unwritten, hsender, isEmpty_iff.mp hnil, pages_nil,
          h.acks_of_not_joined (not_joined (.inl hs)), mem_acknowledgeInOrder, if_true]
        rfl
      · cases hrun
    · cases hrun
  | read =>
    simp only at hrun
    split at hrun
    · cases hrun
    · rename_i hopen
      exact read_keeps hc hin hclosed hw h hr hopen hrun
  | sendAck =>
    simp only at hrun
    split at hrun
    · rename_i rest hacks
      split at hrun
      · rename_i hj
        cases hrun
        obtain ⟨hrest, hnot⟩ := h.ack_next hacks
        rw [unwritten_of_joined hj, hacks, if_pos mem_cons_self] at hw
        refine ⟨?_, List.prefix_append _ _, id, .follows ⟨h.reads.congr rfl rfl rfl rfl ?_, h.inventory,
          .inr ⟨hj, hrest⟩, .inl hr⟩⟩
        · have hj' : ({ s with acks := rest, out := s.out ++ [.ack] } : Side S).joined = true := hj
          rw [unwritten_of_joined hj', if_neg hnot, append_nil]
          exact hw
        · show .read ∈ rest ↔ .read ∈ s.acks
          simp [hacks]
      · cases hrun
    · cases hrun
  | readAck =>
    simp only at hrun
    split at hrun
    · rename_i rest hacks
      split at hrun
      · rename_i hj
        obtain ⟨hrest, hnot⟩ := h.ack_next hacks
        have hread : .read ∈ s.acks := hacks ▸ mem_cons_self
        obtain ⟨hdrop, hi, hp, received, stored, hfinished⟩ := reads_of_joined h hj
        rw [if_pos hread] at hdrop
        rcases readNext_keeps hin hclosed (h.reads.more (.inr hread)) hrun with
          ⟨rfl, hfailed⟩ | ⟨frame, hframe, hthere, rfl⟩
        · exact ⟨hw, List.prefix_rfl, id, .truncated rfl hfailed fun hs => (h.acknowledged hs).2⟩
        have hnext := drop_eq_cons hframe
        rw [hdrop] at hnext
        obtain ⟨rfl, hend⟩ := List.cons.inj hnext
        rw [if_pos rfl]
        refine ⟨?_, List.prefix_rfl, fun _ => hthere,
          .follows ⟨?_, h.inventory, .inr ⟨hj, hrest⟩, .inl hr⟩⟩
        · rw [unwritten_of_joined hj] at hw
          have hj' : ({ s with acks := rest, taken := s.taken + 1 } : Side S).joined = true := hj
          rw [unwritten_of_joined hj']
          simpa [hacks] using hw
        · refine .finished received stored hfinished ?_ hi hp
          show (script peer cfg).drop (s.taken + 1) = if .read ∈ rest then [.ack] else []
          rw [if_neg hnot, ← hend]
      · cases hrun
    · cases hrun
  | finish =>
    simp only at hrun
    split at hrun
    · rename_i total received stored hacks hsender hreceiver
      cases hrun
      have hj : s.joined = true := joined_iff.mpr ⟨⟨_, hsender⟩, _, _, hreceiver⟩
      exact ⟨hw, List.prefix_rfl, id, .follows ⟨h.reads.congr rfl rfl rfl rfl Iff.rfl, h.inventory,
        h.acks, .inr ⟨hj, hacks, _, rfl⟩⟩⟩
    · cases hrun
  | fault why =>
    simp only at hrun
    split at hrun
    · rename_i hfault
      cases hrun
      exact ⟨hw, List.prefix_rfl, id, .fault why rfl hfault fun hs => (h.acknowledged hs).2⟩
    · cases hrun

end Act

end Follow

/-! ## 4. The session -/

/-- The side returned with an error. -/
def Side.Failed {S : Type} (s : Side S) : Prop := ∃ why, s.result = some (.error why)

/-- Some side failed for reasons of its own. -/
def Broken {S : Type} (s : System S) : Prop :=
  ∃ me why, (s me).result = some (.error why) ∧ why.isFault = true

/-- **What holds over every interleaving.** -/
structure Kept {S : Type} (cfg : AuthRole → Config) (s : System S) : Prop where
  written : ∀ me, (s me).out ++ (s me).unwritten (cfg me) (cfg me.other) =
    script (cfg me) (cfg me.other)
  taken : ∀ me, (s me).taken ≤ (s me.other).out.length
  stays : ∀ me, Stays (cfg me) (cfg me.other) (s me.other).Failed (s me)
  broken : ∀ me, (s me).Failed → Broken s

section System

variable {S : Type} {cfg : AuthRole → Config} {ingest : IngestInto S} {stores : AuthRole → S}
  {s s' : System S} {report : SessionReport} {x : Side S}

theorem other_other (me : AuthRole) : me.other.other = me := by cases me <;> rfl

theorem other_ne (me : AuthRole) : me.other ≠ me := by cases me <;> exact AuthRole.noConfusion

theorem eq_or_other (me you : AuthRole) : you = me ∨ you = me.other := by
  cases me <;> cases you <;> simp [AuthRole.other]

theorem Honest.agrees (h : Honest cfg) (me : AuthRole) : Agrees (cfg me) (cfg me.other) :=
  ⟨h.account me, h.push me, h.bound me⟩

theorem kept_start (cfg : AuthRole → Config) (stores : AuthRole → S) :
    Kept cfg (System.start cfg stores) where
  written _ := rfl
  taken _ := Nat.zero_le _
  stays _ := .follows ⟨.hello rfl rfl rfl, nofun, .inl rfl, .inl rfl⟩
  broken _ := nofun

theorem Kept.closed (h : Kept cfg s) (me : AuthRole) (hc : (s me).closed = true) :
    (s me).Failed ∨ (s me).out = script (cfg me) (cfg me.other) := by
  have hall : (s me).joined = true → .send ∉ (s me).acks →
      (s me).out = script (cfg me) (cfg me.other) := by
    intro hj hs
    have hw := h.written me
    rw [unwritten_of_joined hj, if_neg hs, append_nil] at hw
    exact hw
  cases h.stays me with
  | fault why hr => exact .inl ⟨why, hr⟩
  | truncated hr => exact .inl ⟨_, hr⟩
  | follows hf =>
    refine .inr ?_
    rcases Bool.or_eq_true_iff.mp hc with hres | hacks
    · rcases hf.returned with hnone | ⟨hj, hnil, -⟩
      · rw [hnone] at hres
        cases hres
      · exact hall hj (by rw [hnil]; exact not_mem_nil)
    · have hs : .send ∉ (s me).acks := by simpa using hacks
      exact hall (hf.acknowledged hs).1 hs

theorem act_running {me : Side S} {closed : Bool}
    (h : me.act c ingest inbox closed a = some x) : me.result = none := by
  unfold Side.act at h
  split at h
  · cases h
  · rename_i hr
    exact not_isSome_iff_eq_none.mp hr

theorem Kept.step (h : Kept cfg s) (hc : Honest cfg) (hs : s.step cfg ingest me a = some s') :
    Kept cfg s' := by
  obtain ⟨x, hact, rfl⟩ := map_eq_some_iff.mp hs
  have hrun := act_running hact
  have hfollows := (h.stays me).running (by rw [hrun]; nofun)
  have hother := h.written me.other
  rw [other_other] at hother
  have hacts : Acts (cfg me) (cfg me.other) (s me.other).Failed (s me.other).out (s me) x := by
    refine act_keeps (hc.agrees me) ⟨_, hother⟩ (fun hcl => ?_) (h.written me) hfollows hact
    have hclosed := h.closed me.other hcl
    rw [other_other] at hclosed
    exact hclosed
  have hme : update s me x me = x := update_self _ _ _
  have hyou : update s me x me.other = s me.other :=
    update_of_ne (other_ne me) _ _
  have hbroken : Broken s → Broken (update s me x) := by
    rintro ⟨you, why, hr, hfault⟩
    refine ⟨you, why, ?_, hfault⟩
    rcases eq_or_other me you with rfl | rfl
    · rw [hrun] at hr
      cases hr
    · rw [hyou]
      exact hr
  refine ⟨fun you => ?_, fun you => ?_, fun you => ?_, fun you => ?_⟩
  · rcases eq_or_other me you with rfl | rfl
    · rw [hme]
      exact hacts.written
    · rw [hyou]
      exact h.written _
  · rcases eq_or_other me you with rfl | rfl
    · rw [hme, hyou]
      exact hacts.taken (h.taken _)
    · rw [hyou, other_other, hme]
      have hle := h.taken me.other
      rw [other_other] at hle
      exact hle.trans hacts.out.length_le
  · rcases eq_or_other me you with rfl | rfl
    · rw [hme, hyou]
      exact hacts.stays
    · rw [hyou, other_other, hme]
      have hstays := h.stays me.other
      rw [other_other] at hstays
      cases hstays with
      | follows hf => exact .follows hf
      | fault why hr hw hi => exact .fault why hr hw hi
      | truncated _ hp =>
        -- this side has not returned, so the other did not see it fail
        obtain ⟨why, hr⟩ := hp
        rw [hrun] at hr
        cases hr
  · intro hfailed
    rcases eq_or_other me you with rfl | rfl
    · rw [hme] at hfailed
      obtain ⟨why, hr⟩ := hfailed
      rcases hacts.stays.error hr with hw | ⟨-, hp⟩
      · exact ⟨_, why, by rw [hme]; exact hr, hw⟩
      · exact hbroken (h.broken _ hp)
    · rw [hyou] at hfailed
      exact hbroken (h.broken _ hfailed)

theorem Reachable.kept (h : Reachable cfg ingest stores s) (hc : Honest cfg) : Kept cfg s := by
  induction h with
  | start => exact kept_start cfg stores
  | step _ me a hs ih => exact ih.step hc hs

/-- **Without a fault on either side there is no error on either**: a side that failed otherwise found
    the stream of a failed peer closed. -/
theorem Kept.error (h : Kept cfg s) (hr : (s me).result = some (.error why)) :
    Broken s ∧ (why.isFault = true ∨ why = truncated) :=
  ⟨h.broken me ⟨why, hr⟩, ((h.stays me).error hr).imp_right And.left⟩

theorem joined_of_ok (h : Kept cfg s) (hr : (s me).result = some (.ok report)) :
    (s me).ingested = (cfg me.other).toSend (cfg me).inventory ∧
      (script (cfg me.other) (cfg me)).length ≤ (s me).taken := by
  have hf := (h.stays me).running (by rw [hr]; nofun)
  rcases hf.returned with hnone | ⟨hj, hacks, -⟩
  · rw [hr] at hnone
    cases hnone
  · obtain ⟨hdrop, hing, -⟩ := reads_of_joined hf hj
    rw [hacks, if_neg not_mem_nil] at hdrop
    exact ⟨hing, drop_eq_nil_iff.mp hdrop⟩

theorem acknowledged_of_unwritten (h : x.unwritten c peer = []) : .send ∉ x.acks := by
  intro hs
  unfold Side.unwritten at h
  split at h
  · cases h
  · exact absurd h (by simp)
  · exact absurd h (by simp)
  · rw [if_pos hs] at h
    cases h

theorem Kept.complete (h : Kept cfg s) (hr : (s me).result = some (.ok report)) (you : AuthRole) :
    (s you).ingested = (cfg you.other).toSend (cfg you).inventory := by
  obtain ⟨hing, hlen⟩ := joined_of_ok h hr
  rcases eq_or_other me you with rfl | rfl
  · exact hing
  -- its acknowledgement was read, so it was written
  have hwritten := h.written me.other
  rw [other_other] at hwritten
  have hnil : (s me.other).unwritten (cfg me.other) (cfg me) = [] := by
    have hle := hlen.trans (h.taken me)
    rw [← hwritten, length_append] at hle
    exact length_eq_zero_iff.mp (by omega)
  have hs := acknowledged_of_unwritten hnil
  rw [other_other]
  have hstays := h.stays me.other
  rw [other_other] at hstays
  cases hstays with
  | follows hf => exact (hf.acknowledged hs).2
  | fault _ _ _ hi => exact hi hs
  | truncated _ _ hi => exact hi hs

/-- What a side has written of its pages. -/
def Side.pagesOut (x : Side S) : List (List Bytes) := x.out.filterMap Frame.page

theorem Kept.pagesOut (h : Kept cfg s) (me : AuthRole) :
    (∀ page ∈ (s me).pagesOut, page ≠ []) ∧
      (s me).pagesOut.flatten <+: (cfg me).toSend (cfg me.other).inventory := by
  obtain ⟨hne, hflat⟩ := pages_spec ((cfg me).toSend (cfg me.other).inventory)
  have hscript : (script (cfg me) (cfg me.other)).filterMap Frame.page =
      (pages ((cfg me).toSend (cfg me.other).inventory)).filterMap Frame.page := by
    unfold script
    rw [filterMap_cons_none rfl, filterMap_append]
    exact append_nil _
  have hinit : (s me).pagesOut <+:
      (pages ((cfg me).toSend (cfg me.other).inventory)).filterMap Frame.page := by
    rw [← hscript, ← h.written me, filterMap_append]
    exact List.prefix_append _ _
  refine ⟨fun page hmem => hne page (hinit.subset hmem), ?_⟩
  obtain ⟨rest, hrest⟩ := hinit
  rw [← hflat, ← hrest, flatten_append]
  exact List.prefix_append _ _

theorem caps_of_runAuthPhase (h : runAuthPhase dialer acceptor = .ok caps) :
    ∃ dialerLocal acceptorLocal dialerGrant acceptorGrant : PeerCapability,
      caps .dialer = ⟨dialerLocal.restrictedBy acceptorGrant, dialerGrant⟩ ∧
      caps .acceptor = ⟨acceptorLocal.restrictedBy dialerGrant, acceptorGrant⟩ := by
  simp only [runAuthPhase, bind, Except.bind] at h
  split at h
  · cases h
  split at h
  · cases h
  split at h
  · cases h
  split at h
  · cases h
  split at h
  · cases h
  cases h
  exact ⟨_, _, _, _, rfl, rfl⟩

theorem canPush_of_restrictedBy {own grant : PeerCapability}
    (h : (own.restrictedBy grant).canPush = true) : grant.canPush = true := by
  cases own <;> cases grant <;> first | rfl | cases h

theorem push_of_runAuthPhase (h : runAuthPhase dialer acceptor = .ok caps) (me : AuthRole)
    (hpush : (caps me.other).local.canPush = true) : (caps me).peer.canPush = true := by
  obtain ⟨_, _, _, _, hd, ha⟩ := caps_of_runAuthPhase h
  cases me with
  | dialer =>
    have hpush : (caps .acceptor).local.canPush = true := hpush
    rw [ha] at hpush
    rw [hd]
    exact canPush_of_restrictedBy hpush
  | acceptor =>
    have hpush : (caps .dialer).local.canPush = true := hpush
    rw [hd] at hpush
    rw [ha]
    exact canPush_of_restrictedBy hpush

/-- Two authenticated peers of one account, neither with more to send than the other takes. -/
structure Peers (cfg : AuthRole → Config) : Prop where
  role : ∀ me, (cfg me).role = me
  account : ∀ me, (cfg me.other).accountId = (cfg me).accountId
  authenticated : ∃ dialer acceptor, runAuthPhase dialer acceptor =
    .ok fun me => (cfg me).capabilities
  bound : ∀ me, ((cfg me.other).toSend (cfg me).inventory).length ≤ (cfg me).entriesPerSession

theorem Peers.honest (h : Peers cfg) : Honest cfg where
  role := h.role
  account := h.account
  push me hpush := by
    obtain ⟨dialer, acceptor, hauth⟩ := h.authenticated
    exact push_of_runAuthPhase hauth me hpush
  bound := h.bound

theorem mem_offered (hpush : c.capabilities.local.canPush = true) {e : Bytes32 × Bytes}
    (he : e ∈ c.snapshot) (hlack : e.1 ∉ peer.snapshot.map (·.1)) :
    e.2 ∈ c.offered peer.inventory := by
  unfold Config.offered
  rw [if_pos hpush]
  refine mem_map_of_mem (mem_filter.mpr ⟨he, decide_eq_true fun hmem => hlack ?_⟩)
  exact mem_of_mem_take hmem

theorem offered_of_push (hpush : c.capabilities.local.canPush = true) (holds : List Bytes32) :
    c.offered holds = (c.snapshot.filter fun e => e.1 ∉ holds).map (·.2) := if_pos hpush

theorem offered_of_not_push (hpush : c.capabilities.local.canPush = false) (holds : List Bytes32) :
    c.offered holds = [] :=
  if_neg (by rw [hpush]; exact Bool.noConfusion)

end System

end RagRat.EntrySync
