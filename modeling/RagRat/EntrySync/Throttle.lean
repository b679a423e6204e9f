/-
  File:      RagRat/EntrySync/Throttle.lean
  Subject:   THROTTLED SESSIONS. The receiver advertises a prefix of what it holds, and the server sends a
             prefix of what was not advertised, as far as its egress limiter affords it. A session brings
             the receiver something new if and only if the limiter's balance exceeds the entries ahead of
             the first new one: those the receiver holds and had no room to advertise.

  * `lt_kept_iff` -- which entries the limiter permits;
  * `gains_iff_affords` -- one session;
  * `caught_up` -- sessions that are all afforded reach the union;
  * `unadvertised_entry_starves_reader` -- a receiver that one entry keeps from ever catching up.
-/
import Mathlib.Data.List.TakeWhile
import Mathlib.Tactic.Linarith
import RagRat.EntrySync.Progress

namespace RagRat.EntrySync

open List
open Lib.Cbor (Bytes)
open Bytes32 GlobalEgressLimiter

variable {b : TokenBucket} {limiter : GlobalEgressLimiter} {me : AuthRole} {n : Nat}

/-! ## 1. What the limiter permits -/

/-- The size of the entries. -/
def byteCount (entries : List Bytes) : Nat := (entries.map List.length).sum

theorem refill_lastMs (b : TokenBucket) (nowMs : ℤ) : (b.refill nowMs).lastMs = some nowMs := by
  unfold TokenBucket.refill
  split <;> rfl

theorem refill_le_burst (h : b.tokens ≤ b.burst) (nowMs : ℤ) :
    (b.refill nowMs).tokens ≤ (b.refill nowMs).burst := by
  unfold TokenBucket.refill
  split
  · exact h
  · exact min_le_right _ _

theorem refill_again {nowMs : ℤ} (hlast : b.lastMs = some nowMs) (h : b.tokens ≤ b.burst) :
    (b.refill nowMs).tokens = b.tokens := by
  unfold TokenBucket.refill
  rw [hlast]
  simp only [sub_self, max_self, Int.cast_zero, zero_div, zero_mul, add_zero]
  exact min_eq_left h

theorem lt_kept_iff (h : limiter.tokens ≤ limiter.burst) (nowMs : ℤ) (entries : List Bytes)
    (n : Nat) :
    n < limiter.kept nowMs entries ↔
      n < entries.length ∧ (byteCount (entries.take n) : ℚ) < (limiter.refill nowMs).tokens := by
  induction entries generalizing limiter n with
  | nil => simp [kept]
  | cons entry later ih =>
    by_cases hcredit : 0 < (limiter.refill nowMs).tokens
    · have hallow : limiter.allow entry.length nowMs =
          (true, (limiter.refill nowMs).spend entry.length) := if_pos hcredit
      have hlen : (0 : ℚ) ≤ entry.length := Nat.cast_nonneg _
      have hburst := refill_le_burst h nowMs
      have hspent : ((limiter.refill nowMs).spend entry.length).tokens ≤
          ((limiter.refill nowMs).spend entry.length).burst := by
        show (limiter.refill nowMs).tokens - entry.length ≤ (limiter.refill nowMs).burst
        linarith
      have hagain : (((limiter.refill nowMs).spend entry.length).refill nowMs).tokens =
          (limiter.refill nowMs).tokens - entry.length :=
        refill_again (refill_lastMs limiter nowMs) hspent
      simp only [kept, hallow]
      cases n with
      | zero => simpa [byteCount] using hcredit
      | succ n =>
        rw [Nat.add_lt_add_iff_right, ih hspent, hagain, length_cons, take_succ_cons,
          Nat.add_lt_add_iff_right]
        refine and_congr_right fun _ => ?_
        simp only [byteCount, map_cons, sum_cons, Nat.cast_add]
        exact lt_sub_iff_add_lt'
    · have hallow : limiter.allow entry.length nowMs = (false, limiter.refill nowMs) :=
        if_neg hcredit
      simp only [kept, hallow]
      refine iff_of_false (Nat.not_lt_zero _) fun hboth => hcredit ?_
      exact lt_of_le_of_lt (Nat.cast_nonneg _) hboth.2

/-! ## 2. One session -/

/-- The receiver holds the entry. -/
def Config.holds (receiver : Config) (e : Bytes32 × Bytes) : Bool :=
  e.1 ∈ receiver.snapshot.map (·.1)

open Config

/-- What the receiver did not advertise. -/
def Config.unadvertised (server receiver : Config) : List (Bytes32 × Bytes) :=
  server.snapshot.filter fun e => e.1 ∉ receiver.inventory

/-- What the receiver lacks. -/
def Config.lacking (server receiver : Config) : List (Bytes32 × Bytes) :=
  server.snapshot.filter fun e => !receiver.holds e

/-- What is sent before the first entry the receiver lacks. -/
def Config.ahead (server receiver : Config) : List (Bytes32 × Bytes) :=
  (server.unadvertised receiver).takeWhile receiver.holds

section Gain

variable {S : Type} {cfg : AuthRole → Config} {ingest : IngestInto S} {key : Bytes → Bytes32}
  {s : System S} {server receiver : Config}

/-- A successful session in which `me` receives from a server that may push; `key` is the entries'
    hash. -/
structure Served (key : Bytes → Bytes32) (ingest : IngestInto S) (cfg : AuthRole → Config)
    (s : System S) (me : AuthRole) : Prop where
  peers : Peers cfg
  keyed : ∀ e ∈ (cfg me.other).snapshot, e.1 = key e.2
  push : (cfg me.other).capabilities.local.canPush = true
  /-- the limiter's balance is never above its burst: it starts full -/
  burst : ∀ p ∈ (cfg me.other).egress, p.1.tokens ≤ p.1.burst
  reached : ∃ stores, Reachable cfg ingest stores s
  returned : ∃ you report, (s you).result = some (.ok report)

/-- **The receiver has gained**: an entry it lacked, or it lacks none. -/
def Gains (cfg : AuthRole → Config) (s : System S) (me : AuthRole) : Prop :=
  (∃ e ∈ (cfg me.other).lacking (cfg me), e.2 ∈ (s me).ingested) ∨
    ∀ e ∈ (cfg me.other).lacking (cfg me), e.2 ∈ (s me).ingested

/-- **The limiter reaches the first entry the receiver lacks.** -/
def Affords (cfg : AuthRole → Config) (me : AuthRole) : Prop :=
  (cfg me.other).lacking (cfg me) = [] ∨
    ∀ p ∈ (cfg me.other).egress,
      (byteCount (((cfg me.other).ahead (cfg me)).map (·.2)) : ℚ) < (p.1.refill p.2).tokens

theorem mem_unadvertised_of_lacking {e : Bytes32 × Bytes}
    (h : e ∈ server.lacking receiver) : e ∈ server.unadvertised receiver := by
  obtain ⟨hmem, hno⟩ := mem_filter.mp h
  refine mem_filter.mpr ⟨hmem, decide_eq_true fun hadv => ?_⟩
  have hholds : receiver.holds e = true := decide_eq_true (mem_of_mem_take hadv)
  rw [hholds] at hno
  cases hno

theorem unadvertised_eq (h : server.lacking receiver ≠ []) :
    ∃ e later, e ∈ server.lacking receiver ∧
      server.unadvertised receiver = server.ahead receiver ++ e :: later := by
  have hsplit : server.unadvertised receiver =
      server.ahead receiver ++ (server.unadvertised receiver).dropWhile receiver.holds :=
    takeWhile_append_dropWhile.symm
  cases hdrop : (server.unadvertised receiver).dropWhile receiver.holds with
  | nil =>
    obtain ⟨e, he⟩ := exists_mem_of_ne_nil _ h
    have hholds := dropWhile_eq_nil_iff.mp hdrop e (mem_unadvertised_of_lacking he)
    have hno := (mem_filter.mp he).2
    rw [hholds] at hno
    cases hno
  | cons e later =>
    have hno : receiver.holds e ≠ true := by
      have hhead := head?_dropWhile_not receiver.holds (server.unadvertised receiver)
      rw [hdrop] at hhead
      simpa using hhead
    have hmem : e ∈ server.unadvertised receiver := by
      rw [hsplit, hdrop]
      exact mem_append_right _ mem_cons_self
    refine ⟨e, later, mem_filter.mpr ⟨(mem_filter.mp hmem).1, ?_⟩, hdrop ▸ hsplit⟩
    rw [Bool.eq_false_iff.mpr hno]
    rfl

/-- How many of the entries not advertised are sent. -/
def Config.sentCount (server receiver : Config) : Nat :=
  match server.egress with
  | none => (server.unadvertised receiver).length
  | some (limiter, nowMs) => limiter.kept nowMs ((server.unadvertised receiver).map (·.2))

theorem toSend_eq (hpush : server.capabilities.local.canPush = true) (receiver : Config) :
    server.toSend receiver.inventory =
      ((server.unadvertised receiver).take (server.sentCount receiver)).map (·.2) := by
  unfold toSend sentCount
  rw [offered_of_push hpush]
  cases server.egress with
  | none =>
    simp only [take_length]
    rfl
  | some p =>
    simp only [map_take]
    rfl

theorem gains_iff_affords (h : Served key ingest cfg s me) : Gains cfg s me ↔ Affords cfg me := by
  obtain ⟨stores, hreach⟩ := h.reached
  obtain ⟨you, report, hok⟩ := h.returned
  have hing := (hreach.kept h.peers.honest).complete hok me
  rw [toSend_eq h.push] at hing
  by_cases hlack : (cfg me.other).lacking (cfg me) = []
  · refine iff_of_true (.inr fun e he => ?_) (.inl hlack)
    rw [hlack] at he
    cases he
  obtain ⟨x, later, hx, hsplit⟩ := unadvertised_eq hlack
  -- the first entry lacking is sent, or none is
  have hgain : Gains cfg s me ↔
      ((cfg me.other).ahead (cfg me)).length < (cfg me.other).sentCount (cfg me) := by
    constructor
    · intro hg
      have hsome : ∃ e ∈ (cfg me.other).lacking (cfg me), e.2 ∈ (s me).ingested :=
        hg.elim id fun hall => ⟨x, hx, hall x hx⟩
      obtain ⟨e, he, hsent⟩ := hsome
      rw [hing] at hsent
      obtain ⟨e', he', hbytes⟩ := mem_map.mp hsent
      by_contra hle
      have hahead : e' ∈ (cfg me.other).ahead (cfg me) := by
        rw [hsplit, take_append_of_le_length (Nat.le_of_not_lt hle)] at he'
        exact mem_of_mem_take he'
      have hholds : (cfg me).holds e' = true := mem_takeWhile_imp hahead
      have hmem : e' ∈ (cfg me.other).snapshot :=
        (mem_filter.mp (mem_of_mem_take he')).1
      have hkey : e'.1 = e.1 := by
        rw [h.keyed e' hmem, h.keyed e (mem_filter.mp he).1, hbytes]
      have hno := (mem_filter.mp he).2
      unfold holds at hholds hno
      rw [← hkey, hholds] at hno
      cases hno
    · intro hlt
      refine .inl ⟨x, hx, ?_⟩
      rw [hing]
      refine mem_map_of_mem ?_
      rw [hsplit, take_append]
      refine mem_append_right _ ?_
      obtain ⟨k, hk⟩ := Nat.exists_eq_add_of_lt hlt
      have hsub : (cfg me.other).sentCount (cfg me) - ((cfg me.other).ahead (cfg me)).length =
          k + 1 := by omega
      rw [hsub, take_succ_cons]
      exact mem_cons_self
  have hlen : ((cfg me.other).ahead (cfg me)).length <
      ((cfg me.other).unadvertised (cfg me)).length := by
    rw [hsplit, length_append, length_cons]
    omega
  rw [hgain]
  unfold Affords
  rw [or_iff_right hlack]
  cases hegress : (cfg me.other).egress with
  | none =>
    refine iff_of_true ?_ nofun
    unfold sentCount
    rw [hegress]
    exact hlen
  | some p =>
    obtain ⟨limiter, nowMs⟩ := p
    have hburst : limiter.tokens ≤ limiter.burst := h.burst (limiter, nowMs) hegress
    have hcount : (cfg me.other).sentCount (cfg me) =
        limiter.kept nowMs (((cfg me.other).unadvertised (cfg me)).map (·.2)) := by
      unfold sentCount
      rw [hegress]
    have htake : (((cfg me.other).unadvertised (cfg me)).map (·.2)).take
        ((cfg me.other).ahead (cfg me)).length = ((cfg me.other).ahead (cfg me)).map (·.2) := by
      rw [← map_take, hsplit, take_left]
    rw [hcount, lt_kept_iff hburst, length_map, htake]
    simp only [hlen, true_and, Option.mem_some_iff, forall_eq']

/-! ## 3. Repeated sessions -/

/-- The hashes of what a side holds. -/
def Config.hashes (c : Config) : List Bytes32 := c.snapshot.map (·.1)

/-- **Sessions one after the other**: the server stays, the receiver grows by what each brought it.
    -/
structure Repeated (key : Bytes → Bytes32) (cfg : Nat → AuthRole → Config) (s : Nat → System S)
    (me : AuthRole) : Prop where
  server : ∀ i, (cfg (i + 1) me.other).snapshot = (cfg i me.other).snapshot
  stored : ∀ i hash, hash ∈ (cfg (i + 1) me).hashes ↔
    hash ∈ (cfg i me).hashes ∨ ∃ bytes ∈ (s i me).ingested, key bytes = hash

section Repeat

variable {cfg : Nat → AuthRole → Config} {s : Nat → System S}

theorem Repeated.server_eq (h : Repeated key cfg s me) (n : Nat) :
    (cfg n me.other).snapshot = (cfg 0 me.other).snapshot := by
  induction n with
  | zero => rfl
  | succ n ih => exact (h.server n).trans ih

theorem Served.of_ingested {cfg : AuthRole → Config} {s : System S} (h : Served key ingest cfg s me)
    {bytes : Bytes} (hb : bytes ∈ (s me).ingested) : key bytes ∈ (cfg me.other).hashes := by
  obtain ⟨stores, hreach⟩ := h.reached
  obtain ⟨you, report, hok⟩ := h.returned
  rw [(hreach.kept h.peers.honest).complete hok me, toSend_eq h.push] at hb
  obtain ⟨e, he, rfl⟩ := mem_map.mp hb
  have hmem : e ∈ (cfg me.other).snapshot := (mem_filter.mp (mem_of_mem_take he)).1
  rw [← h.keyed e hmem]
  exact mem_map_of_mem hmem

theorem Repeated.lacking_succ (h : Repeated key cfg s me) (n : Nat) :
    (cfg (n + 1) me.other).lacking (cfg (n + 1) me) =
      ((cfg n me.other).lacking (cfg n me)).filter fun e => !(cfg (n + 1) me).holds e := by
  unfold lacking
  rw [filter_filter, h.server n]
  refine filter_congr fun e _ => ?_
  cases hholds : (cfg n me).holds e with
  | false => rw [Bool.not_false, Bool.and_true]
  | true =>
    have hstill : (cfg (n + 1) me).holds e = true :=
      decide_eq_true ((h.stored n e.1).mpr (.inl (of_decide_eq_true hholds)))
    rw [hstill]
    rfl

theorem Repeated.lacking_lt (h : Repeated key cfg s me)
    (hserved : Served key ingest (cfg n) (s n) me) (hgains : Gains (cfg n) (s n) me)
    (hlack : (cfg n me.other).lacking (cfg n me) ≠ []) :
    ((cfg (n + 1) me.other).lacking (cfg (n + 1) me)).length <
      ((cfg n me.other).lacking (cfg n me)).length := by
  have hsome : ∃ e ∈ (cfg n me.other).lacking (cfg n me), e.2 ∈ (s n me).ingested :=
    hgains.elim id fun hall =>
      (exists_mem_of_ne_nil _ hlack).imp fun e he => ⟨he, hall e he⟩
  obtain ⟨e, he, hing⟩ := hsome
  rw [h.lacking_succ, length_filter_lt_length_iff_exists]
  refine ⟨e, he, ?_⟩
  have hnow : (cfg (n + 1) me).holds e = true := by
    refine decide_eq_true ((h.stored n e.1).mpr (.inr ⟨e.2, hing, ?_⟩))
    exact (hserved.keyed e (mem_filter.mp he).1).symm
  rw [hnow]
  exact Bool.false_ne_true

variable (h : Repeated key cfg s me) (hserved : ∀ i, Served key ingest (cfg i) (s i) me)
  (hafford : ∀ i, Affords (cfg i) me)

include h hserved hafford

theorem Repeated.lacking_le (n : Nat) :
    ((cfg n me.other).lacking (cfg n me)).length ≤
      ((cfg 0 me.other).lacking (cfg 0 me)).length - n := by
  induction n with
  | zero => exact le_refl _
  | succ n ih =>
    by_cases hlack : (cfg n me.other).lacking (cfg n me) = []
    · rw [h.lacking_succ, hlack]
      exact Nat.zero_le _
    · have hgains := (gains_iff_affords (hserved n)).mpr (hafford n)
      have hlt := h.lacking_lt (hserved n) hgains hlack
      omega

theorem caught_up (hn : ((cfg 0 me.other).lacking (cfg 0 me)).length ≤ n) (hash : Bytes32) :
    hash ∈ (cfg n me).hashes ↔ hash ∈ (cfg 0 me).hashes ∨ hash ∈ (cfg 0 me.other).hashes := by
  constructor
  · clear hn
    induction n with
    | zero => exact .inl
    | succ n ih =>
      intro hmem
      rcases (h.stored n hash).mp hmem with hold | ⟨bytes, hb, rfl⟩
      · exact ih hold
      refine .inr ?_
      have hserver := (hserved n).of_ingested hb
      unfold hashes at hserver ⊢
      rw [h.server_eq n] at hserver
      exact hserver
  · rintro (hown | hserver)
    · clear hn
      induction n with
      | zero => exact hown
      | succ n ih => exact (h.stored n hash).mpr (.inl ih)
    · have hle := h.lacking_le hserved hafford n
      have hnil : (cfg n me.other).lacking (cfg n me) = [] :=
        length_eq_zero_iff.mp (by omega)
      obtain ⟨e, he, rfl⟩ := mem_map.mp hserver
      rw [← h.server_eq n] at he
      have hholds : (cfg n me).holds e = true := by
        have hall := filter_eq_nil_iff.mp hnil e he
        simpa using hall
      exact of_decide_eq_true hholds

end Repeat

theorem affords_of_advertised (hsmall : (cfg me).snapshot.length ≤ maxHelloHashes)
    (hcredit : ∀ p ∈ (cfg me.other).egress, 0 < (p.1.refill p.2).tokens) : Affords cfg me := by
  refine .inr fun p hp => ?_
  have hall : (cfg me).inventory = (cfg me).snapshot.map (·.1) :=
    take_of_length_le (by rwa [length_map])
  have hnil : (cfg me.other).ahead (cfg me) = [] := by
    refine eq_nil_iff_forall_not_mem.mpr fun e he => ?_
    have hholds : (cfg me).holds e = true := mem_takeWhile_imp he
    have hun := (mem_filter.mp ((List.takeWhile_prefix _).subset he)).2
    rw [hall] at hun
    exact of_decide_eq_true hun (of_decide_eq_true hholds)
  rw [hnil]
  simpa [byteCount] using hcredit p hp

/-- **Sessions under an egress throttle converge.** A session brings a side something exactly if the other's
    credit affords it; sessions that all do so bring the side everything the other has, in at most as
    many as there are entries it lacks. -/
theorem throttled_sessions_converge (key : Bytes → Bytes32) (ingest : IngestInto S) (me : AuthRole) :
    (∀ (cfg : AuthRole → Config) (s : System S), Served key ingest cfg s me →
      (Gains cfg s me ↔ Affords cfg me)) ∧
    ∀ (cfg : Nat → AuthRole → Config) (s : Nat → System S),
      (∀ i, Served key ingest (cfg i) (s i) me) → Repeated key cfg s me →
      (∀ i, Affords (cfg i) me) →
      ∀ n, ((cfg 0 me.other).lacking (cfg 0 me)).length ≤ n → ∀ hash,
        hash ∈ (cfg n me).hashes ↔ hash ∈ (cfg 0 me).hashes ∨ hash ∈ (cfg 0 me.other).hashes :=
  ⟨fun _ _ hserved => gains_iff_affords hserved,
    fun _ _ hserved hrep hafford _ hn hash => caught_up hrep hserved hafford hn hash⟩

end Gain

/-! ## 4. Concrete sessions -/

theorem served_of_peers {key : Bytes → Bytes32} {cfg : AuthRole → Config} (hpeers : Peers cfg)
    (hkeyed : ∀ e ∈ (cfg me.other).snapshot, e.1 = key e.2)
    (hpush : (cfg me.other).capabilities.local.canPush = true)
    (hburst : ∀ p ∈ (cfg me.other).egress, p.1.tokens ≤ p.1.burst) :
    ∃ s, Served key keepAll cfg s me ∧
      (s me).ingested = (cfg me.other).toSend (cfg me).inventory := by
  obtain ⟨s, hleads, hok⟩ := session_ends (fun _ _ => rfl) hpeers.honest
    (Reachable.start : Reachable cfg keepAll (fun _ => []) _) fun _ => nofun
  have hreach := Reachable.start.leads hleads
  obtain ⟨report, hreport⟩ := hok me
  exact ⟨s, ⟨hpeers, hkeyed, hpush, hburst, ⟨_, hreach⟩, ⟨me, report, hreport⟩⟩,
    (hreach.kept hpeers.honest).complete hreport me⟩

/-- The entry of a hash, for a hash that reads it back. -/
def entryOf (h : Bytes32) : Bytes32 × Bytes := (h, h.toBytes)

/-- The acceptor serves through a limiter; the dialer holds these. -/
def reading (held served : List Bytes32) (limiter : GlobalEgressLimiter) (me : AuthRole) : Config where
  role := me
  accountId := 9
  capabilities := ⟨.readWrite, .readWrite⟩
  snapshot := match me with
    | .dialer => held.map entryOf
    | .acceptor => served.map entryOf
  egress := match me with
    | .dialer => none
    | .acceptor => some (limiter, 0)
  entriesPerSession := 1000000

theorem peers_reading {held served : List Bytes32} (limiter : GlobalEgressLimiter)
    (hheld : held.length ≤ 1000000) (hserved : served.length ≤ 1000000) :
    Peers (reading held served limiter) where
  role _ := rfl
  account _ := rfl
  authenticated := ⟨_, _, runAuthPhase_owners⟩
  bound me := by
    refine ((toSend_initial _ _).length_le.trans (offered_length _ _)).trans ?_
    cases me with
    | dialer =>
      show (served.map entryOf).length ≤ 1000000
      rwa [length_map]
    | acceptor =>
      show (held.map entryOf).length ≤ 1000000
      rwa [length_map]

theorem served_reading {held served : List Bytes32} (hheld : held.length ≤ 1000000)
    (hserved : served.length ≤ 1000000) (hburst : limiter.tokens ≤ limiter.burst) :
    ∃ s, Served ofBytes keepAll (reading held served limiter) s .dialer ∧
      (s .dialer).ingested = (reading held served limiter .acceptor).toSend
        (reading held served limiter .dialer).inventory := by
  refine served_of_peers (peers_reading limiter hheld hserved) (fun e he => ?_) rfl fun p hp => ?_
  · obtain ⟨h, -, rfl⟩ := mem_map.mp he
    exact (ofBytes_toBytes h).symm
  · cases hp
    exact hburst

/-- A limiter that has one byte of its burst left. -/
def nearlySpent : GlobalEgressLimiter := (new.allow (64 * 1024 * 1024 - 1) 0).2

theorem nearlySpent_tokens : (nearlySpent.refill 0).tokens = 1 := by decide +kernel

theorem nearlySpent_le_burst : nearlySpent.tokens ≤ nearlySpent.burst := by decide +kernel

/-- A reader that gets one entry in each session. -/
def heldAfter : Nat → List Bytes32
  | 0 => [1, 2]
  | 1 => [1, 2, 3]
  | _ => [1, 2, 3, 4]

theorem toSend_heldAfter (i : Nat) :
    (reading (heldAfter i) [2, 3, 4] nearlySpent .acceptor).toSend
      (reading (heldAfter i) [2, 3, 4] nearlySpent .dialer).inventory =
      match i with
      | 0 => [(3 : Bytes32).toBytes]
      | 1 => [(4 : Bytes32).toBytes]
      | _ => [] := by
  match i with
  | 0 => decide +kernel
  | 1 => decide +kernel
  | n + 2 =>
    show (reading [1, 2, 3, 4] [2, 3, 4] nearlySpent .acceptor).toSend
      (reading [1, 2, 3, 4] [2, 3, 4] nearlySpent .dialer).inventory = []
    decide +kernel

theorem throttled_sessions_converge_reader :
    ∃ s : Nat → System (List Bytes),
      (∀ i, Served ofBytes keepAll (reading (heldAfter i) [2, 3, 4] nearlySpent) (s i) .dialer) ∧
      Gains (reading (heldAfter 0) [2, 3, 4] nearlySpent) (s 0) .dialer ∧
      ∀ hash, hash ∈ (reading (heldAfter 2) [2, 3, 4] nearlySpent .dialer).hashes ↔
        hash ∈ (reading (heldAfter 0) [2, 3, 4] nearlySpent .dialer).hashes ∨
          hash ∈ (reading (heldAfter 0) [2, 3, 4] nearlySpent .acceptor).hashes := by
  have hex : ∀ i, ∃ s, Served ofBytes keepAll
      (reading (heldAfter i) [2, 3, 4] nearlySpent) s .dialer ∧ _ := fun i =>
    served_reading (by unfold heldAfter; split <;> decide) (by decide) nearlySpent_le_burst
  choose s hserved hing using hex
  have haffords : ∀ i, Affords (reading (heldAfter i) [2, 3, 4] nearlySpent) .dialer := by
    refine fun i => affords_of_advertised ?_ fun p hp => ?_
    · show ((heldAfter i).map entryOf).length ≤ maxHelloHashes
      rw [length_map]
      unfold heldAfter
      split <;> decide
    · cases hp
      rw [nearlySpent_tokens]
      exact one_pos
  have hrep : Repeated ofBytes
      (fun i => reading (heldAfter i) [2, 3, 4] nearlySpent) s .dialer := by
    refine ⟨fun _ => rfl, fun i hash => ?_⟩
    rw [hing i, toSend_heldAfter i]
    match i with
    | 0 =>
      show hash ∈ [1, 2, 3] ↔ hash ∈ [1, 2] ∨ _
      simp only [exists_eq_left, ofBytes_toBytes, mem_cons,
        not_mem_nil, or_false, or_assoc, eq_comm (a := hash) (b := 3)]
    | 1 =>
      show hash ∈ [1, 2, 3, 4] ↔ hash ∈ [1, 2, 3] ∨ _
      simp only [exists_eq_left, ofBytes_toBytes, mem_cons,
        not_mem_nil, or_false, or_assoc, eq_comm (a := hash) (b := 4)]
    | n + 2 =>
      show hash ∈ [1, 2, 3, 4] ↔ hash ∈ [1, 2, 3, 4] ∨ ∃ bytes ∈ [], _
      simp
  have hmain := throttled_sessions_converge ofBytes keepAll .dialer
  exact ⟨s, hserved, (hmain.1 _ _ (hserved 0)).mpr (haffords 0),
    hmain.2 _ s hserved hrep haffords 2 (by decide +kernel)⟩

/-- The hashes from 0 on. -/
def firstHashes (n : Nat) : List Bytes32 := (List.range n).map (Fin.ofNat (2 ^ 256))

theorem mem_firstHashes (hn : n ≤ 2 ^ 256) (h : Bytes32) : h ∈ firstHashes n ↔ h.val < n := by
  unfold firstHashes
  rw [mem_map]
  constructor
  · rintro ⟨k, hk, rfl⟩
    have hlt := mem_range.mp hk
    show k % 2 ^ 256 < n
    rwa [Nat.mod_eq_of_lt (lt_of_lt_of_le hlt hn)]
  · intro hlt
    refine ⟨h.val, mem_range.mpr hlt, Fin.ext ?_⟩
    exact Nat.mod_eq_of_lt h.isLt

theorem reading_firstHashes (hn : n ≤ 2 ^ 256) (served : List Bytes32)
    (limiter : GlobalEgressLimiter) (h : Bytes32) :
    (reading (firstHashes n) served limiter .dialer).holds (entryOf h) = decide (h.val < n) ∧
      (h ∈ (reading (firstHashes n) served limiter .dialer).inventory ↔
        h.val < min maxHelloHashes n) := by
  have hhashes : (reading (firstHashes n) served limiter .dialer).snapshot.map (·.1) =
      firstHashes n := by
    show ((firstHashes n).map entryOf).map (·.1) = firstHashes n
    rw [map_map]
    exact map_id _
  have htake : (firstHashes n).take maxHelloHashes = firstHashes (min maxHelloHashes n) := by
    unfold firstHashes
    rw [← map_take, take_range]
  unfold holds inventory boundedInventory
  rw [hhashes, htake]
  exact ⟨decide_eq_decide.mpr (mem_firstHashes hn h), mem_firstHashes ((min_le_right _ _).trans hn) h⟩

/-- One entry more than a hello advertises: it is sent in every session, and the limiter stops
    there. -/
theorem unadvertised_entry_starves_reader :
    ∃ s, Served ofBytes keepAll
        (reading (firstHashes 65537) [65536, 65537] nearlySpent) s .dialer ∧
      0 < (nearlySpent.refill 0).tokens ∧
      entryOf 65537 ∈ (reading (firstHashes 65537) [65536, 65537] nearlySpent .acceptor).lacking
        (reading (firstHashes 65537) [65536, 65537] nearlySpent .dialer) ∧
      ¬ Gains (reading (firstHashes 65537) [65536, 65537] nearlySpent) s .dialer := by
  have hbound : (65537 : Nat) ≤ 2 ^ 256 := by norm_num
  have hlen : (firstHashes 65537).length ≤ 1000000 := by
    unfold firstHashes
    rw [length_map, length_range]
    norm_num
  have hread := reading_firstHashes hbound [65536, 65537] nearlySpent
  generalize firstHashes 65537 = held at hlen hread ⊢
  obtain ⟨s, hserved, -⟩ :=
    served_reading hlen (by decide : [65536, (65537 : Bytes32)].length ≤ 1000000) nearlySpent_le_burst
  have hfirst := (hread 65536).1.trans (show _ = true by decide +kernel)
  have hsecond := (hread 65537).1.trans (show _ = false by decide +kernel)
  have hlack : entryOf 65537 ∈ (reading held [65536, 65537] nearlySpent .acceptor).lacking
      (reading held [65536, 65537] nearlySpent .dialer) :=
    mem_filter.mpr ⟨mem_cons_of_mem _ mem_cons_self, by rw [hsecond]; rfl⟩
  have hun : (reading held [65536, 65537] nearlySpent .acceptor).unadvertised
      (reading held [65536, 65537] nearlySpent .dialer) = [entryOf 65536, entryOf 65537] := by
    refine filter_eq_self.mpr fun e he => decide_eq_true ?_
    obtain ⟨h, hh, rfl⟩ := mem_map.mp he
    show h ∉ _
    rw [(hread h).2, min_eq_left (by decide), not_lt]
    rcases mem_pair.mp hh with rfl | rfl <;> decide +kernel
  have hahead : (reading held [65536, 65537] nearlySpent .acceptor).ahead
      (reading held [65536, 65537] nearlySpent .dialer) = [entryOf 65536] := by
    unfold ahead
    rw [hun, takeWhile_cons_of_pos hfirst, takeWhile_cons_of_neg (by rw [hsecond]; decide)]
  refine ⟨s, hserved, by rw [nearlySpent_tokens]; exact one_pos, hlack, fun hgains => ?_⟩
  rcases (gains_iff_affords hserved).mp hgains with hnil | hafford
  · rw [show AuthRole.dialer.other = .acceptor from rfl] at hnil
    rw [hnil] at hlack
    cases hlack
  · have hless := hafford (nearlySpent, 0) rfl
    rw [show AuthRole.dialer.other = .acceptor from rfl, hahead, nearlySpent_tokens] at hless
    exact absurd hless (by decide +kernel)

end RagRat.EntrySync
