/-
  File:      RagRat/Memory/Publication.lean
  Subject:   THE PARTS OF AN ANCHOR PUBLICATION STAY TOGETHER. A device publishes a memory's anchors as
             three ops, the source hash, the scopes and the set; a peer has a first part of each chain.

  * `PublishingChain` -- a chain on which the memory's anchors are published only so, and what a peer
    has of it;
  * `anchor_triple_stays_together` -- the projected scopes are those of the winning set's triple, and
    the source hash is that triple's or, while the next one has not come whole, the next one's.
-/
import RagRat.Lib.Ascending
import RagRat.Memory.Project

namespace RagRat.Memory

open List hiding set
open Lib.Ascending Lib.Cbor Lib.Register
open Option

/-! ## 1. Publications -/

/-- What a device publishes of a memory's anchors. -/
structure Publication where
  sourceTextHash : String
  scopes : List AnchorScope
  anchors : List PortableAnchor

/-- The three ops of a publication, anchors last. -/
def anchorPublicationOps (id : NodeId) (p : Publication) : List MemoryOp :=
  [.nodeSourceHash id p.sourceTextHash, .nodeAnchorScopes id p.scopes, .nodeAnchors id p.anchors]

/-- The entry holds an op of a publication of the memory. -/
def Entry.publishes (id : NodeId) (e : Entry) : Bool :=
  match e.op with
  | .nodeSourceHash i _ | .nodeAnchorScopes i _ | .nodeAnchors i _ => i = id
  | _ => false

open Entry

/-- A chain on which the anchors are published as whole triples, and how much of it a peer has. -/
structure PublishingChain (id : NodeId) (d : DeviceFingerprint) where
  entries : List Entry
  device : ∀ e ∈ entries, e.opMeta.device = d
  rises : Rises (·.opMeta.lamport) entries
  publications : List Publication
  triples : (entries.filter (publishes id)).map op = publications.flatMap (anchorPublicationOps id)
  received : Nat

theorem getElem?_flatMap_ops (id : NodeId) (ps : List Publication) (i : Nat) :
    (ps.flatMap (anchorPublicationOps id))[i]? =
      ps[i / 3]?.bind fun p => (anchorPublicationOps id p)[i % 3]? := by
  induction ps generalizing i with
  | nil => rfl
  | cons p ps ih =>
    match i with
    | 0 | 1 | 2 => rfl
    | i + 3 =>
      rw [Nat.add_div_right i (by decide), Nat.add_mod_right]
      exact ih i

/-! ## 2. What a peer has of a chain -/

namespace PublishingChain

variable {id : NodeId} {d : DeviceFingerprint} (c : PublishingChain id d) {i j : Nat} {e e' : Entry}

/-- The published ops among the entries received. -/
def published : List Entry := (c.entries.take c.received).filter (publishes id)

/-- The entry stands at a place among them. -/
def Place (i : Nat) (e : Entry) : Prop := c.published[i]? = some e

/-- The set of the `k`-th publication has been received, and that of the next one has not. -/
structure Newest (k : Nat) (p : Publication) (set : Entry) : Prop where
  publication : c.publications[k]? = some p
  place : c.Place (3 * k + 2) set
  length_le : c.published.length ≤ 3 * k + 5

variable {c}

theorem Place.lt_length (h : c.Place i e) : i < c.published.length :=
  (List.getElem?_eq_some_iff.mp h).1

theorem Place.cases (h : c.Place i e) : ∃ k p, c.publications[k]? = some p ∧
    (i = 3 * k ∧ e.op = .nodeSourceHash id p.sourceTextHash ∨
      i = 3 * k + 1 ∧ e.op = .nodeAnchorScopes id p.scopes ∨
      i = 3 * k + 2 ∧ e.op = .nodeAnchors id p.anchors) := by
  have hinit : c.entries.take c.received <+: c.entries := take_prefix _ _
  obtain ⟨rest, hrest⟩ := hinit.filter (publishes id)
  have hplace : (c.entries.filter (publishes id))[i]? = some e := by
    rw [← hrest]
    exact (getElem?_append_left h.lt_length).trans h
  have hop := congrArg (·[i]?) c.triples
  simp only [getElem?_map, getElem?_flatMap_ops, hplace, map_some] at hop
  obtain ⟨p, hp, hop⟩ := bind_eq_some_iff.mp hop.symm
  refine ⟨i / 3, p, hp, ?_⟩
  have hdiv := Nat.div_add_mod i 3
  have hlt := Nat.mod_lt i (show 0 < 3 by decide)
  generalize i % 3 = r at hop hdiv hlt
  match r with
  | 0 => exact .inl ⟨hdiv.symm, (some.inj hop).symm⟩
  | 1 => exact .inr (.inl ⟨hdiv.symm, (some.inj hop).symm⟩)
  | 2 => exact .inr (.inr ⟨hdiv.symm, (some.inj hop).symm⟩)

theorem Place.lt (h : c.Place i e) (h' : c.Place j e') (hlt : i < j) :
    e.opMeta.lamport < e'.opMeta.lamport := by
  obtain ⟨hi, rfl⟩ := List.getElem?_eq_some_iff.mp h
  obtain ⟨hj, rfl⟩ := List.getElem?_eq_some_iff.mp h'
  have hrises : Rises _ c.published :=
    c.rises.sublist (filter_sublist.trans (take_sublist c.received _))
  exact pairwise_iff_getElem.mp hrises i j hi hj hlt

theorem Place.le (h : c.Place i e) (h' : c.Place j e') (hle : e.opMeta.lamport ≤ e'.opMeta.lamport) :
    i ≤ j := by
  by_contra hlt
  exact absurd (h'.lt h (not_le.mp hlt)) (not_lt.mpr hle)

theorem Newest.companions {k : Nat} {p : Publication} {set : Entry} (h : c.Newest k p set) :
    (∃ e, c.Place (3 * k) e ∧ e.op = .nodeSourceHash id p.sourceTextHash) ∧
      ∃ e, c.Place (3 * k + 1) e ∧ e.op = .nodeAnchorScopes id p.scopes := by
  have hbefore : ∀ i < 3 * k + 2, ∃ e, c.Place i e := fun i hi =>
    ⟨_, getElem?_eq_getElem (hi.trans h.place.lt_length)⟩
  obtain ⟨e, he⟩ := hbefore (3 * k) (by omega)
  obtain ⟨e', he'⟩ := hbefore (3 * k + 1) (by omega)
  constructor
  · obtain ⟨k', p', hp', ⟨hk, hop⟩ | ⟨hk, hop⟩ | ⟨hk, hop⟩⟩ := he.cases <;> try omega
    obtain rfl : k' = k := by omega
    cases h.publication.symm.trans hp'
    exact ⟨e, he, hop⟩
  · obtain ⟨k', p', hp', ⟨hk, hop⟩ | ⟨hk, hop⟩ | ⟨hk, hop⟩⟩ := he'.cases <;> try omega
    obtain rfl : k' = k := by omega
    cases h.publication.symm.trans hp'
    exact ⟨e', he', hop⟩

end PublishingChain

/-! ## 3. The projected triple -/

section Triple

variable {id : NodeId} {d : DeviceFingerprint} {chains : ∀ d, PublishingChain id d} {es : List Entry}
  {e e' set : Entry} {i k : Nat} {p : Publication}

theorem lamport_le_of_rank_le (h : e.rank ≤ e'.rank) : e.opMeta.lamport ≤ e'.opMeta.lamport :=
  (Prod.Lex.toLex_le_toLex.mp h).elim le_of_lt fun h => h.1.le

theorem anchorsOf_eq_some {w : List PortableAnchor × OpMeta} (hw : anchorsOf id e = some w) :
    ∃ as, e.op = .nodeAnchors id as ∧ w = (canonicalAnchors as, e.opMeta) := by
  unfold anchorsOf at hw
  split at hw <;> simp_all

theorem sourceHashOf_eq_some {hash : String} (hs : sourceHashOf id d e = some hash) :
    e.op = .nodeSourceHash id hash ∧ e.opMeta.device = d := by
  unfold sourceHashOf at hs
  split at hs <;> simp_all

theorem scopesAt_eq_some {v : AnchorScopes} (hs : scopesAt id d i e = some v) :
    ∃ ss, e.op = .nodeAnchorScopes id ss ∧ e.opMeta.device = d ∧ v = collectScopes ss := by
  unfold scopesAt at hs
  split at hs <;> simp_all

/-- The entries are those received of every device's chain. -/
def Received (chains : ∀ d, PublishingChain id d) (es : List Entry) : Prop :=
  ∀ e, e ∈ es ↔ ∃ d, e ∈ (chains d).entries.take (chains d).received

variable (h : Received chains es)

include h

theorem Received.mem (hp : (chains d).Place i e) : e ∈ es ∧ e.opMeta.device = d := by
  have hmem := mem_of_mem_filter (mem_of_getElem? hp)
  exact ⟨(h e).mpr ⟨d, hmem⟩, (chains d).device e (mem_of_mem_take hmem)⟩

theorem Received.place (he : e ∈ es) (hp : e.publishes id = true) (hd : e.opMeta.device = d) :
    ∃ i, (chains d).Place i e := by
  obtain ⟨d', hd'⟩ := (h e).mp he
  obtain rfl := ((chains d').device e (mem_of_mem_take hd')).symm.trans hd
  exact mem_iff_getElem?.mp (mem_filter.mpr ⟨hd', hp⟩)

theorem Received.newest {as : List PortableAnchor} (hset : set ∈ es)
    (hop : set.op = .nodeAnchors id as)
    (hmost : ∀ e ∈ es, (anchorsOf id e).isSome → e.rank ≤ set.rank) :
    ∃ k p, (chains set.opMeta.device).Newest k p set ∧ p.anchors = as := by
  obtain ⟨i, hi⟩ := h.place hset (by simp [publishes, hop]) rfl
  obtain ⟨k, p, hp, ⟨-, hop'⟩ | ⟨-, hop'⟩ | ⟨rfl, hop'⟩⟩ := hi.cases <;> cases hop.symm.trans hop'
  refine ⟨k, p, ⟨hp, hi, not_lt.mp fun hlt => ?_⟩, rfl⟩
  have hnext : (chains set.opMeta.device).Place (3 * k + 5) _ := getElem?_eq_getElem hlt
  obtain ⟨k', p', -, ⟨hk, -⟩ | ⟨hk, -⟩ | ⟨-, hop'⟩⟩ := hnext.cases
  · omega
  · omega
  · have hrank := hmost _ (h.mem hnext).1 (by simp [anchorsOf, hop'])
    have hle := hnext.le hi (lamport_le_of_rank_le hrank)
    omega

variable (hset : (chains set.opMeta.device).Newest k p set)

include hset

theorem Received.hash {found : Option String}
    (hg : Greatest rank (sourceHashOf id set.opMeta.device) es found) :
    ∃ k' p', (chains set.opMeta.device).publications[k']? = some p' ∧
      found = some p'.sourceTextHash ∧ k ≤ k' ∧
      3 * k' < (chains set.opMeta.device).published.length := by
  obtain ⟨e, he, hown⟩ := hset.companions.1
  obtain ⟨hmem, hdev⟩ := h.mem he
  cases found with
  | none => exact absurd (hg e hmem) (by simp [sourceHashOf, hown, hdev])
  | some hash =>
    obtain ⟨e', he', hsel, hmost⟩ := hg
    obtain ⟨hop, hdev'⟩ := sourceHashOf_eq_some hsel
    obtain ⟨i, hi⟩ := h.place he' (by simp [publishes, hop]) hdev'
    have hle := he.le hi (lamport_le_of_rank_le (hmost e hmem (by simp [sourceHashOf, hown, hdev])))
    obtain ⟨k', p', hp', ⟨rfl, hop'⟩ | ⟨-, hop'⟩ | ⟨-, hop'⟩⟩ := hi.cases <;> cases hop.symm.trans hop'
    exact ⟨k', p', hp', rfl, by omega, hi.lt_length⟩

theorem Received.scopes {found : Option AnchorScopes} (hg : GreatestScopes es id set.opMeta found) :
    found = some (collectScopes p.scopes) := by
  obtain ⟨e, he, hown⟩ := hset.companions.2
  obtain ⟨hmem, hdev⟩ := h.mem he
  have hfor : ScopesFor es id set.opMeta e (collectScopes p.scopes) := by
    refine ⟨by simp [scopesAt, hown, hdev], (he.lt hset.place (by omega)).le, ?_⟩
    rintro x hx ⟨⟨as, hop⟩, hxdev⟩ hlt
    -- a set before this one is of an earlier publication
    obtain ⟨i, hi⟩ := h.place hx (by simp [publishes, hop]) hxdev
    by_contra hle
    have hle := he.le hi (not_lt.mp hle)
    have hle' := hi.le hset.place hlt.le
    obtain ⟨k', p', -, ⟨-, hop'⟩ | ⟨-, hop'⟩ | ⟨rfl, -⟩⟩ := hi.cases
    · cases hop.symm.trans hop'
    · cases hop.symm.trans hop'
    · obtain rfl : k' = k := by omega
      cases some.inj (hi.symm.trans hset.place)
      omega
  cases found with
  | none => exact absurd hfor (hg e hmem _)
  | some v =>
    obtain ⟨e', he', ⟨hsel, hle, -⟩, hmost⟩ := hg
    obtain ⟨ss, hop, hdev', rfl⟩ := scopesAt_eq_some hsel
    obtain ⟨i, hi⟩ := h.place he' (by simp [publishes, hop]) hdev'
    have hge := he.le hi (lamport_le_of_rank_le (hmost e hmem _ hfor))
    have hle := hi.le hset.place hle
    obtain ⟨k', p', hp', ⟨-, hop'⟩ | ⟨rfl, hop'⟩ | ⟨-, hop'⟩⟩ := hi.cases <;> cases hop.symm.trans hop'
    obtain rfl : k' = k := by omega
    cases hset.publication.symm.trans hp'
    rfl

end Triple

/-- **A published triple stays together.** The winning set is the `k`-th of its device; the node carries
    the scopes of the `k`-th triple, and its source hash or that of the next one -- its own, if what was
    received of the device ends with a whole triple. -/
theorem anchor_triple_stays_together {id : NodeId} {chains : ∀ d, PublishingChain id d} {es : List Entry}
    (h : Received chains es) (sha256 : Bytes → Bytes32) (hcreate : ∃ e ∈ es, Creates id e) :
    ∃ node, (project sha256 es).nodes id = some node ∧ ∀ m, node.anchorsMeta = some m →
      ∃ k p set, (chains m.device).publications[k]? = some p ∧
        (chains m.device).Place (3 * k + 2) set ∧ set.opMeta = m ∧
        node.anchors = some (canonicalAnchors p.anchors) ∧
        node.anchorScopes = collectScopes p.scopes ∧
        (node.sourceTextHash = some p.sourceTextHash ∨
          ∃ p', (chains m.device).publications[k + 1]? = some p' ∧
            node.sourceTextHash = some p'.sourceTextHash) ∧
        (3 ∣ (chains m.device).published.length → node.sourceTextHash = some p.sourceTextHash) := by
  obtain ⟨node, hnode⟩ := isSome_iff_exists.mp ((project_node_isSome sha256 es id).mpr hcreate)
  refine ⟨node, hnode, fun m hm => ?_⟩
  obtain ⟨-, -, ⟨w, hw, hanchors, hmeta⟩, -, hhash, hscopes⟩ := project_node sha256 es hnode
  obtain ⟨w, rfl, rfl⟩ := map_eq_some_iff.mp (hmeta.symm.trans hm)
  obtain ⟨set, hset, hsel, hmost⟩ := hw
  obtain ⟨as, hop, rfl⟩ := anchorsOf_eq_some hsel
  obtain ⟨k, p, hset, rfl⟩ := h.newest hset hop hmost
  obtain ⟨s, hs, hnodeScopes⟩ := hscopes _ hm
  obtain ⟨k', p', hp', hfound, hle, hlt⟩ := h.hash hset (hhash _ hm)
  have hlen := hset.length_le
  refine ⟨k, p, set, hset.publication, hset.place, rfl, hanchors, ?_, ?_, fun hdvd => ?_⟩
  · rw [hnodeScopes, h.scopes hset hs]
    rfl
  · obtain rfl | rfl : k' = k ∨ k' = k + 1 := by omega
    · cases hset.publication.symm.trans hp'
      exact .inl hfound
    · exact .inr ⟨p', hp', hfound⟩
  · dsimp only at hdvd
    obtain rfl : k' = k := by omega
    cases hset.publication.symm.trans hp'
    exact hfound

/-- Two publications each of the devices 7 and 8; of 8, which is ahead, no set has come. -/
def noteChain (d : DeviceFingerprint) : PublishingChain "n" d where
  entries :=
    let t := if d = 7 then 0 else 9
    [⟨⟨t + 1, d⟩, .nodeCreate "n" ⟨"note", "t", "b", "high", "agent", [], none⟩, by decide +kernel⟩,
     ⟨⟨t + 2, d⟩, .nodeSourceHash "n" "h", by decide +kernel⟩,
     ⟨⟨t + 3, d⟩, .nodeAnchorScopes "n" [⟨"path", "p", if d = 7 then "g" else "x"⟩],
       by split <;> decide +kernel⟩,
     ⟨⟨t + 4, d⟩, .nodeAnchors "n" [], by decide +kernel⟩,
     ⟨⟨t + 5, d⟩, .nodeSourceHash "n" "h2", by decide +kernel⟩,
     ⟨⟨t + 6, d⟩, .nodeAnchorScopes "n" [], by decide +kernel⟩,
     ⟨⟨t + 7, d⟩, .nodeAnchors "n" [], by decide +kernel⟩]
  device := by simp
  rises := by simp [Rises]
  publications := [⟨"h", [⟨"path", "p", if d = 7 then "g" else "x"⟩], []⟩, ⟨"h2", [], []⟩]
  triples := rfl
  received := if d = 7 then 5 else if d = 8 then 3 else 0

/-- The node has the scopes of the device 7, and a source hash of its triples. -/
theorem anchor_triple_stays_together_note :
    ∃ node, (project (fun _ => 0) ((noteChain 7).entries.take 5 ++ (noteChain 8).entries.take 3)).nodes "n" =
        some node ∧ node.anchorsMeta = some ⟨4, 7⟩ ∧
      node.anchorScopes = collectScopes [⟨"path", "p", "g"⟩] ∧
      (node.sourceTextHash = some "h" ∨ node.sourceTextHash = some "h2") := by
  have hreceived : Received noteChain ((noteChain 7).entries.take 5 ++ (noteChain 8).entries.take 3) := by
    refine fun e => ⟨fun he => (mem_append.mp he).elim (⟨7, ·⟩) (⟨8, ·⟩), fun ⟨d, he⟩ => mem_append.mpr ?_⟩
    by_cases h7 : d = 7
    · subst h7
      exact .inl he
    by_cases h8 : d = 8
    · subst h8
      exact .inr he
    · simp [noteChain, h7, h8] at he
  obtain ⟨node, hnode, h⟩ := anchor_triple_stays_together hreceived (fun _ => 0)
    ⟨_, mem_cons_self, ⟨_, rfl⟩⟩
  have hmeta : node.anchorsMeta = some ⟨4, 7⟩ := by
    have hall : ((project (fun _ => 0) ((noteChain 7).entries.take 5 ++ (noteChain 8).entries.take 3)).nodes
        "n").all fun node => node.anchorsMeta = some ⟨4, 7⟩ := by decide +kernel
    rw [hnode] at hall
    exact of_decide_eq_true hall
  obtain ⟨k, p, set, hp, hplace, -, -, hscopes, hhash, -⟩ := h _ hmeta
  have hk : 3 * k + 2 < 4 := hplace.lt_length
  obtain rfl : k = 0 := by omega
  cases hp
  refine ⟨node, hnode, hmeta, hscopes, hhash.imp_right ?_⟩
  rintro ⟨p', hp', hhash⟩
  cases hp'
  exact hhash

end RagRat.Memory
