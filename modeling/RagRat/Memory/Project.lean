/-
  File:      RagRat/Memory/Project.lean
  Subject:   THE PROJECTION of a memory log: a fold of its entries into nodes and edges.

  The entries are walked in the order of `(lamport, device, encoded op)` and each one overwrites the
  registers of the node or edge it names. At the end the registers of a node are paired: the source
  hash and the scopes are those of the device that wrote the winning anchor set.

  * `walk_content`, `walk_anchors`, ... -- after a walk every register holds what its last statement
    said; `walk_superseded` -- of the sets before the last one the newest `32` are kept.
  * `NodeIs`, `EdgeIs` -- the projected node and edge, told from the SET of entries alone; it is what
    `project` computes (`project_converges`).
-/
import Mathlib.Data.Finset.Max
import Mathlib.Data.List.AList
import Mathlib.Data.List.DropRight
import Mathlib.Data.List.Lex
import RagRat.Memory.Op

namespace RagRat.Memory

open List hiding set
open Lib.Cbor Lib.Register
open IdentifiedRow (identity)
open Function Option

variable {es es' l l' : List Entry} {e e' : Entry} {id : NodeId}

/-! ## 1. Entries and their order -/

/-- One op with its ordering metadata; its encoding fits a buffer. -/
structure Entry where
  opMeta : OpMeta
  op : MemoryOp
  fits : FitsBuffer op
  deriving DecidableEq

open Entry

/-- The total order of a log: `(lamport, device)`, then the bytes of the op. -/
def Entry.rank (e : Entry) : Nat ×ₗ DeviceFingerprint ×ₗ Bytes :=
  toLex (e.opMeta.lamport, toLex (e.opMeta.device, encode e.op))

/-- By lamport, then device. -/
def inTotalOrder (entries : List Entry) : List Entry := sorted rank entries

/-- The entry as a peer decodes it. -/
def Entry.canonical (e : Entry) : Entry := ⟨e.opMeta, e.op.canonical, e.fits.canonical⟩

theorem rank_canonical (e : Entry) : e.canonical.rank = e.rank := by
  unfold rank canonical
  rw [encode_canonical]

theorem canonical_eq_of_rank_eq (a b : Entry) (h : a.rank = b.rank) : a.canonical = b.canonical := by
  have hpair := toLex.injective h
  simp only [Prod.mk.injEq] at hpair
  have hrest := toLex.injective hpair.2
  simp only [Prod.mk.injEq] at hrest
  have hmeta : a.opMeta = b.opMeta := by
    cases ha : a.opMeta
    cases hb : b.opMeta
    simp_all
  have hop := canonical_eq_of_encode_eq a.fits hrest.2
  unfold canonical
  simp only [hmeta, hop]

/-! ## 2. The projected state -/

/-- The scope of each anchor's target, by the anchor's identity. -/
abbrev AnchorScopes := String ×ₗ String → Option String

/-- No scope known. -/
def noScopes : AnchorScopes := fun _ => none

/-- A node as it is shown. -/
structure ProjectedNode where
  content : NodeContent
  status : NodeStatus
  anchors : Option (List PortableAnchor)
  sourceTextHash : Option String
  anchorScopes : AnchorScopes
  anchorsMeta : Option OpMeta
  supersededAnchors : List (List PortableAnchor × OpMeta)

/-- An edge as it is shown. -/
structure ProjectedEdge where
  spec : EdgeSpec
  resolved : Option ResolvedAnchor
  deriving DecidableEq

/-- **What the log says.** -/
structure ProjectedState where
  nodes : NodeId → Option ProjectedNode
  edges : EdgeKey → Option ProjectedEdge
  removedEdges : EdgeKey → Option ProjectedEdge

/-- How many replaced anchor sets a node keeps. -/
def supersededAnchorSetsKept : Nat := 32

/-! ## 3. The fold -/

/-- What the walk knows of a node. -/
structure NodeAccum where
  existsNode : Bool := false
  content : Option NodeContent := none
  status : Option NodeStatus := none
  anchors : Option (List PortableAnchor × OpMeta) := none
  supersededAnchors : List (List PortableAnchor × OpMeta) := []
  sourceTextHashByDevice : DeviceFingerprint → Option String := fun _ => none
  anchorScopesByDevice : DeviceFingerprint → AList (fun _ : Nat => AnchorScopes) := fun _ => ∅
  anchorSetLamportsByDevice : DeviceFingerprint → Finset Nat := fun _ => ∅

/-- What the walk knows of an edge. -/
structure EdgeAccum where
  present : Bool := false
  spec : Option EdgeSpec := none
  resolved : Option ResolvedAnchor := none

/-- The accumulators of every node and edge; one nobody named is at its default. -/
structure Accums where
  nodes : NodeId → NodeAccum := fun _ => {}
  edges : EdgeKey → EdgeAccum := fun _ => {}

open Accums

namespace Accums

section

variable (s : Accums)

/-- Change one node. -/
def modifyNode (id : NodeId) (f : NodeAccum → NodeAccum) : Accums :=
  { s with nodes := update s.nodes id (f (s.nodes id)) }

/-- Change one edge. -/
def modifyEdge (key : EdgeKey) (f : EdgeAccum → EdgeAccum) : Accums :=
  { s with edges := update s.edges key (f (s.edges key)) }

theorem modifyNode_nodes (id id' : NodeId) (f : NodeAccum → NodeAccum) :
    (s.modifyNode id f).nodes id' = if id = id' then f (s.nodes id') else s.nodes id' := by
  by_cases h : id = id'
  · subst h
    simp [modifyNode]
  · simp [modifyNode, h, update_of_ne (Ne.symm h)]

theorem modifyEdge_edges (key key' : EdgeKey) (f : EdgeAccum → EdgeAccum) :
    (s.modifyEdge key f).edges key' = if key = key' then f (s.edges key') else s.edges key' := by
  by_cases h : key = key'
  · subst h
    simp [modifyEdge]
  · simp [modifyEdge, h, update_of_ne (Ne.symm h)]

@[simp] theorem modifyEdge_nodes (key : EdgeKey) (f : EdgeAccum → EdgeAccum) :
    (s.modifyEdge key f).nodes = s.nodes := rfl

@[simp] theorem modifyNode_edges (id : NodeId) (f : NodeAccum → NodeAccum) :
    (s.modifyNode id f).edges = s.edges := rfl

end

end Accums

/-- The set the register held joins the superseded ones, the oldest making room. -/
def pushSuperseded (held : Option (List PortableAnchor × OpMeta))
    (superseded : List (List PortableAnchor × OpMeta)) : List (List PortableAnchor × OpMeta) :=
  match held with
  | none => superseded
  | some set =>
    let pushed := superseded ++ [set]
    if supersededAnchorSetsKept < pushed.length then pushed.drop 1 else pushed

theorem pushSuperseded_rtake (sets : List (List PortableAnchor × OpMeta)) :
    pushSuperseded sets.getLast? (sets.dropLast.rtake supersededAnchorSetsKept) =
      sets.rtake supersededAnchorSetsKept := by
  rcases eq_nil_or_concat sets with rfl | ⟨before, set, rfl⟩
  · rfl
  · rw [concat_eq_append, getLast?_concat, dropLast_concat]
    simp only [pushSuperseded, rtake, length_append, length_drop, length_singleton]
    split
    · rw [← drop_append_of_le_length (by omega), drop_drop]
      congr 1
      omega
    · rw [← drop_append_of_le_length (by omega)]
      congr 1
      omega

/-- Anchors by identity. -/
def canonicalAnchors (anchors : List PortableAnchor) : List PortableAnchor := sortRows anchors

/-- Scopes by identity; of two for one identity the later one stays. -/
def collectScopes (scopes : List AnchorScope) : AnchorScopes :=
  scopes.foldl (fun m s => update m (identity s) (some s.scopeHash)) noScopes

/-- A new anchor set; the old one is kept as superseded. -/
def setAnchors (anchors : List PortableAnchor) (m : OpMeta) (n : NodeAccum) : NodeAccum :=
  { n with
    anchors := some (canonicalAnchors anchors, m)
    supersededAnchors := pushSuperseded n.anchors n.supersededAnchors
    anchorSetLamportsByDevice := update n.anchorSetLamportsByDevice m.device
      (insert m.lamport (n.anchorSetLamportsByDevice m.device)) }

/-- A device's scopes at a lamport. -/
def setScopes (scopes : List AnchorScope) (m : OpMeta) (n : NodeAccum) : NodeAccum :=
  { n with
    anchorScopesByDevice := update n.anchorScopesByDevice m.device
      ((n.anchorScopesByDevice m.device).insert m.lamport (collectScopes scopes)) }

theorem mem_setAnchors (anchors : List PortableAnchor) (m : OpMeta) (n : NodeAccum)
    (d : DeviceFingerprint) (k : Nat) :
    k ∈ (setAnchors anchors m n).anchorSetLamportsByDevice d ↔
      (m.device = d ∧ m.lamport = k) ∨ k ∈ n.anchorSetLamportsByDevice d := by
  by_cases hd : m.device = d
  · subst hd
    simp [setAnchors, eq_comm]
  · simp [setAnchors, hd, update_of_ne (Ne.symm hd)]

theorem lookup_setScopes (scopes : List AnchorScope) (m : OpMeta) (n : NodeAccum)
    (d : DeviceFingerprint) (k : Nat) :
    ((setScopes scopes m n).anchorScopesByDevice d).lookup k =
      if m.device = d ∧ m.lamport = k then some (collectScopes scopes)
      else (n.anchorScopesByDevice d).lookup k := by
  by_cases hd : m.device = d
  · subst hd
    by_cases hk : m.lamport = k
    · subst hk
      simp [setScopes]
    · simp [setScopes, hk, AList.lookup_insert_ne (Ne.symm hk)]
  · simp [setScopes, hd, update_of_ne (Ne.symm hd)]

section Fold

variable (sha256 : Bytes → Bytes32)

/-- One entry of the walk. The dimensions are independent: an op touches only what it names. -/
def foldEntry (s : Accums) (e : Entry) : Accums :=
  match e.op with
  | .nodeCreate id content => s.modifyNode id fun n =>
    { n with existsNode := true, content := some content.canonicalize }
  | .nodeUpdate id content => s.modifyNode id fun n =>
    { n with content := some content.canonicalize }
  | .nodeStatus id status => s.modifyNode id fun n => { n with status := some status }
  | .edgeAdd edge => s.modifyEdge (edge.edgeKey sha256) fun a =>
    { a with present := true, spec := some edge }
  | .edgeRemove key => s.modifyEdge key fun a => { a with present := false }
  | .rebind key resolved => s.modifyEdge key fun a => { a with resolved := some resolved }
  | .nodeSourceHash id hash => s.modifyNode id fun n =>
    { n with sourceTextHashByDevice :=
        update n.sourceTextHashByDevice e.opMeta.device (some hash) }
  | .nodeAnchors id anchors => s.modifyNode id (setAnchors anchors e.opMeta)
  | .nodeAnchorScopes id scopes => s.modifyNode id (setScopes scopes e.opMeta)
  | .snapshot => s

/-- The entries, folded in order. -/
def walk (entries : List Entry) : Accums := entries.foldl (foldEntry sha256) {}

end Fold

section

variable (acc : NodeAccum) (m : OpMeta)

/-- The lamport of the device's anchor set before the one at `m`. -/
def precedingSet : WithBot Nat :=
  ((acc.anchorSetLamportsByDevice m.device).filter (· < m.lamport)).max

/-- The lamports of the device's scopes after its preceding set and up to the one at `m`. -/
def scopeLamports : List Nat :=
  (acc.anchorScopesByDevice m.device).keys.filter fun k : Nat =>
    precedingSet acc m < (k : WithBot Nat) ∧ k ≤ m.lamport

/-- The latest scopes of the winning set's device, since its preceding set. -/
def publishedScopes : Option AnchorScopes :=
  (scopeLamports acc m).max?.bind fun k => (acc.anchorScopesByDevice m.device).lookup k

end

/-- A node exists once it was created, and then has a content. -/
def finishNode (acc : NodeAccum) : Option ProjectedNode :=
  (if acc.existsNode then acc.content else none).map fun content =>
    let anchorsMeta := acc.anchors.map Prod.snd
    { content
      status := acc.status.getD default
      anchors := acc.anchors.map Prod.fst
      sourceTextHash := anchorsMeta.bind fun m => acc.sourceTextHashByDevice m.device
      anchorScopes := (anchorsMeta.bind (publishedScopes acc)).getD noScopes
      anchorsMeta
      supersededAnchors := acc.supersededAnchors }

/-- The row of an edge among those whose presence is `present`; one never added has none. -/
def edgeRow (present : Bool) (acc : EdgeAccum) : Option ProjectedEdge :=
  match acc.spec with
  | some spec => if acc.present = present then some { spec, resolved := acc.resolved } else none
  | none => none

/-- The live edges and the tombstoned ones. -/
def splitEdges (edges : EdgeKey → EdgeAccum) :
    (EdgeKey → Option ProjectedEdge) × (EdgeKey → Option ProjectedEdge) :=
  (fun key => edgeRow true (edges key), fun key => edgeRow false (edges key))

/-- **The projection**: the walk in the total order, finished. -/
def project (sha256 : Bytes → Bytes32) (entries : List Entry) : ProjectedState :=
  let s := walk sha256 (inTotalOrder entries)
  let (liveEdges, removedEdges) := splitEdges s.edges
  { nodes := fun id => finishNode (s.nodes id), edges := liveEdges, removedEdges }

/-! ## 4. The wire is not seen -/

theorem collectScopes_eq_last (scopes : List AnchorScope) (k : String ×ₗ String) :
    collectScopes scopes k =
      last (fun s => if identity s = k then some s.scopeHash else none) scopes := by
  refine foldl_register_option (fun m : AnchorScopes => m k) (fun m s => ?_) rfl scopes
  by_cases h : identity s = k
  · subst h
    simp
  · simp [h, update_of_ne (Ne.symm h)]

theorem collectScopes_sortRows (scopes : List AnchorScope) :
    collectScopes (sortRows scopes) = collectScopes scopes := by
  funext k
  rw [collectScopes_eq_last, collectScopes_eq_last]
  refine last_sorted (k := k) (fun s hs => ?_) scopes
  by_contra hne
  simp [hne] at hs

theorem setAnchors_sortRows (anchors : List PortableAnchor) :
    setAnchors (sortRows anchors) = setAnchors anchors := by
  funext m n
  simp only [setAnchors, canonicalAnchors, sortRows_idem]

theorem setScopes_sortRows (scopes : List AnchorScope) :
    setScopes (sortRows scopes) = setScopes scopes := by
  funext m n
  simp only [setScopes, collectScopes_sortRows]

section Wire

variable (sha256 : Bytes → Bytes32)

theorem canonicalize_idem (c : NodeContent) : c.canonicalize.canonicalize = c.canonicalize := by
  unfold NodeContent.canonicalize
  simp only [canonicalTags_idem]

theorem foldEntry_canonical (s : Accums) (e : Entry) :
    foldEntry sha256 s e.canonical = foldEntry sha256 s e := by
  obtain ⟨m, op, hfit⟩ := e
  cases op with
  | nodeCreate id c => simp only [foldEntry, canonical, MemoryOp.canonical, canonicalize_idem]
  | nodeUpdate id c => simp only [foldEntry, canonical, MemoryOp.canonical, canonicalize_idem]
  | nodeAnchors id as =>
    simp only [foldEntry, canonical, MemoryOp.canonical, setAnchors_sortRows]
  | nodeAnchorScopes id ss =>
    simp only [foldEntry, canonical, MemoryOp.canonical, setScopes_sortRows]
  | _ => rfl

theorem walk_map_canonical (l : List Entry) : walk sha256 (l.map canonical) = walk sha256 l := by
  unfold walk
  rw [foldl_map]
  congr 1
  funext s e
  exact foldEntry_canonical sha256 s e

theorem project_eq_of_walk (h : walk sha256 (inTotalOrder es) = walk sha256 (inTotalOrder es')) :
    project sha256 es = project sha256 es' := by
  unfold project
  rw [h]

theorem project_perm (h : es.Perm es') : project sha256 es = project sha256 es' := by
  refine project_eq_of_walk sha256 ?_
  rw [← walk_map_canonical, ← walk_map_canonical sha256 (inTotalOrder es')]
  exact congrArg _ (map_sorted_eq_of_perm rank_canonical canonical_eq_of_rank_eq h)

theorem project_map_canonical (es : List Entry) :
    project sha256 (es.map canonical) = project sha256 es := by
  refine project_eq_of_walk sha256 ?_
  have hsorted : (inTotalOrder es).map canonical = inTotalOrder (es.map canonical) :=
    map_sorted rank_canonical es
  rw [← hsorted, walk_map_canonical]

end Wire

/-! ## 5. What an entry states -/

section

variable (id : NodeId)

/-- The entry creates the node. -/
def Creates (e : Entry) : Prop :=
  ∃ content, e.op = .nodeCreate id content

/-- The entry publishes an anchor set of the node, from the device. -/
def PublishesAnchors (d : DeviceFingerprint) (e : Entry) : Prop :=
  (∃ anchors, e.op = .nodeAnchors id anchors) ∧ e.opMeta.device = d

/-- The content an entry gives the node. -/
def contentOf (e : Entry) : Option NodeContent :=
  match e.op with
  | .nodeCreate i c | .nodeUpdate i c => if i = id then some c.canonicalize else none
  | _ => none

/-- The status it gives. -/
def statusOf (e : Entry) : Option NodeStatus :=
  match e.op with
  | .nodeStatus i status => if i = id then some status else none
  | _ => none

/-- The anchors it gives. -/
def anchorsOf (e : Entry) : Option (List PortableAnchor × OpMeta) :=
  match e.op with
  | .nodeAnchors i anchors => if i = id then some (canonicalAnchors anchors, e.opMeta) else none
  | _ => none

/-- The source hash it gives on a device. -/
def sourceHashOf (d : DeviceFingerprint) (e : Entry) : Option String :=
  match e.op with
  | .nodeSourceHash i hash => if i = id ∧ e.opMeta.device = d then some hash else none
  | _ => none

/-- The scopes it gives on a device at a lamport. -/
def scopesAt (d : DeviceFingerprint) (k : Nat) (e : Entry) : Option AnchorScopes :=
  match e.op with
  | .nodeAnchorScopes i scopes =>
    if i = id ∧ e.opMeta.device = d ∧ e.opMeta.lamport = k then some (collectScopes scopes) else none
  | _ => none

end

section

variable (sha256 : Bytes → Bytes32) (key : EdgeKey) (e : Entry)

/-- The edge's presence: an add states it, a remove takes it back. -/
def presenceOf : Option Bool :=
  match e.op with
  | .edgeAdd edge => if edge.edgeKey sha256 = key then some true else none
  | .edgeRemove k => if k = key then some false else none
  | _ => none

/-- The edge an entry adds under the key. -/
def specOf : Option EdgeSpec :=
  match e.op with
  | .edgeAdd edge => if edge.edgeKey sha256 = key then some edge else none
  | _ => none

end

/-- The anchor it resolves for the key. -/
def resolvedOf (key : EdgeKey) (e : Entry) : Option ResolvedAnchor :=
  match e.op with
  | .rebind k resolved => if k = key then some resolved else none
  | _ => none

/-! ## 6. The registers after a walk

One line per register: a step overwrites it with what the entry states, so after the walk it holds
what the last entry stated. -/

section Walk

variable (sha256 : Bytes → Bytes32) (l : List Entry) (id : NodeId) (d : DeviceFingerprint)
  (key : EdgeKey)

attribute [local simp] foldEntry modifyNode_nodes modifyEdge_edges setAnchors setScopes

theorem walk_existsNode : ((walk sha256 l).nodes id).existsNode = true ↔ ∃ e ∈ l, Creates id e := by
  refine foldl_flag (p := fun s : Accums => (s.nodes id).existsNode = true) (fun s e => ?_)
    (Bool.false_ne_true) l
  obtain ⟨m, op, hfit⟩ := e
  cases op <;> simp [Creates] <;> split_ifs <;> simp_all

theorem walk_content : ((walk sha256 l).nodes id).content = last (contentOf id) l := by
  refine foldl_register_option (fun s : Accums => (s.nodes id).content) (fun s e => ?_) rfl l
  obtain ⟨m, op, hfit⟩ := e
  cases op <;> simp [contentOf] <;> split_ifs <;> rfl

theorem walk_status : ((walk sha256 l).nodes id).status = last (statusOf id) l := by
  refine foldl_register_option (fun s : Accums => (s.nodes id).status) (fun s e => ?_) rfl l
  obtain ⟨m, op, hfit⟩ := e
  cases op <;> simp [statusOf] <;> split_ifs <;> rfl

theorem walk_anchors : ((walk sha256 l).nodes id).anchors = last (anchorsOf id) l := by
  refine foldl_register_option (fun s : Accums => (s.nodes id).anchors) (fun s e => ?_) rfl l
  obtain ⟨m, op, hfit⟩ := e
  cases op <;> simp [anchorsOf] <;> split_ifs <;> rfl

theorem walk_superseded : ((walk sha256 l).nodes id).supersededAnchors =
    (l.filterMap (anchorsOf id)).dropLast.rtake supersededAnchorSetsKept := by
  have hstep : ∀ (s : Accums) (e : Entry), ((foldEntry sha256 s e).nodes id).supersededAnchors =
      if (anchorsOf id e).isSome then pushSuperseded (s.nodes id).anchors (s.nodes id).supersededAnchors
      else (s.nodes id).supersededAnchors := by
    rintro s ⟨m, op, hfit⟩
    cases op <;> simp [anchorsOf] <;> split_ifs <;> simp_all
  induction l using reverseRecOn with
  | nil => rfl
  | append_singleton l e ih =>
    have hlast : walk sha256 (l ++ [e]) = foldEntry sha256 (walk sha256 l) e := by
      simp only [walk, foldl_append, foldl_cons, foldl_nil]
    rw [hlast, hstep, walk_anchors, ih, filterMap_append]
    cases h : anchorsOf id e with
    | none => simp [h]
    | some w =>
      simp only [filterMap_cons, h, filterMap_nil, dropLast_concat]
      exact pushSuperseded_rtake _

theorem walk_sourceTextHash :
    ((walk sha256 l).nodes id).sourceTextHashByDevice d = last (sourceHashOf id d) l := by
  refine foldl_register_option (fun s : Accums => (s.nodes id).sourceTextHashByDevice d)
    (fun s e => ?_) rfl l
  obtain ⟨m, op, hfit⟩ := e
  by_cases hd : m.device = d
  · subst hd
    cases op <;> simp [sourceHashOf] <;> split_ifs <;> simp
  · cases op <;> simp [sourceHashOf, hd] <;> split_ifs <;> simp [update_of_ne (Ne.symm hd)]

theorem walk_scopes (k : Nat) :
    (((walk sha256 l).nodes id).anchorScopesByDevice d).lookup k = last (scopesAt id d k) l := by
  refine foldl_register_option
    (fun s : Accums => ((s.nodes id).anchorScopesByDevice d).lookup k) (fun s e => ?_) rfl l
  obtain ⟨m, op, hfit⟩ := e
  cases op with
  | nodeAnchorScopes i scopes =>
    by_cases hi : i = id
    · by_cases hk : m.device = d ∧ m.lamport = k
      · simp [-setScopes, scopesAt, lookup_setScopes, hi, hk]
      · simp [-setScopes, scopesAt, lookup_setScopes, hi, hk]
    · simp [scopesAt, hi]
  | _ => simp [scopesAt] <;> split_ifs <;> rfl

theorem walk_setLamports (k : Nat) :
    k ∈ ((walk sha256 l).nodes id).anchorSetLamportsByDevice d ↔
      ∃ e ∈ l, PublishesAnchors id d e ∧ e.opMeta.lamport = k := by
  refine foldl_flag (p := fun s : Accums => k ∈ (s.nodes id).anchorSetLamportsByDevice d)
    (fun s e => ?_) (Finset.notMem_empty k) l
  obtain ⟨m, op, hfit⟩ := e
  cases op with
  | nodeAnchors i anchors =>
    by_cases hi : i = id
    · simp [-setAnchors, PublishesAnchors, mem_setAnchors, hi]
    · simp [PublishesAnchors, hi]
  | _ => simp [PublishesAnchors] <;> split_ifs <;> rfl

theorem walk_present :
    ((walk sha256 l).edges key).present = (last (presenceOf sha256 key) l).getD false := by
  refine foldl_register (fun s : Accums => (s.edges key).present) (fun s e => ?_) {} l
  obtain ⟨m, op, hfit⟩ := e
  cases op <;> simp [presenceOf] <;> split_ifs <;> rfl

theorem walk_spec : ((walk sha256 l).edges key).spec = last (specOf sha256 key) l := by
  refine foldl_register_option (fun s : Accums => (s.edges key).spec) (fun s e => ?_) rfl l
  obtain ⟨m, op, hfit⟩ := e
  cases op <;> simp [specOf] <;> split_ifs <;> rfl

theorem walk_resolved : ((walk sha256 l).edges key).resolved = last (resolvedOf key) l := by
  refine foldl_register_option (fun s : Accums => (s.edges key).resolved) (fun s e => ?_) rfl l
  obtain ⟨m, op, hfit⟩ := e
  cases op <;> simp [resolvedOf] <;> split_ifs <;> rfl

end Walk

/-! ## 7. The projection in terms of the entries -/

section

variable (es : List Entry) (id : NodeId) (m : OpMeta)

/-- The lamport is above every anchor set the device published before `m`. -/
def AfterPrecedingSet (k : Nat) : Prop :=
  ∀ e ∈ es, PublishesAnchors id m.device e → e.opMeta.lamport < m.lamport → e.opMeta.lamport < k

/-- The scopes for the anchor set at `m`: its device's, up to its lamport, since the set before. -/
def ScopesFor (e : Entry) (v : AnchorScopes) : Prop :=
  scopesAt id m.device e.opMeta.lamport e = some v ∧ e.opMeta.lamport ≤ m.lamport ∧
    AfterPrecedingSet es id m e.opMeta.lamport

/-- The greatest scopes published for the anchor set at `m`, if there are any. -/
def GreatestScopes : Option AnchorScopes → Prop
  | none => ∀ e ∈ es, ∀ v, ¬ ScopesFor es id m e v
  | some v => ∃ e ∈ es, ScopesFor es id m e v ∧
      ∀ e' ∈ es, ∀ v', ScopesFor es id m e' v' → e'.rank ≤ e.rank

end

/-- What the entries make of a created node. -/
structure NodeIs (es : List Entry) (id : NodeId) (n : ProjectedNode) : Prop where
  content : Greatest rank (contentOf id) es (some n.content)
  status : ∃ s, Greatest rank (statusOf id) es s ∧ n.status = s.getD .active
  anchors : ∃ w, Greatest rank (anchorsOf id) es w ∧ n.anchors = w.map Prod.fst ∧
    n.anchorsMeta = w.map Prod.snd
  unpaired : n.anchorsMeta = none → n.sourceTextHash = none ∧ n.anchorScopes = noScopes
  sourceHash : ∀ m, n.anchorsMeta = some m →
    Greatest rank (sourceHashOf id m.device) es n.sourceTextHash
  scopes : ∀ m, n.anchorsMeta = some m →
    ∃ s, GreatestScopes es id m s ∧ n.anchorScopes = s.getD noScopes

/-- What the entries make of an edge that was added. -/
structure EdgeIs (sha256 : Bytes → Bytes32) (es : List Entry) (key : EdgeKey) (p : ProjectedEdge) :
    Prop where
  spec : Greatest rank (specOf sha256 key) es (some p.spec)
  resolved : Greatest rank (resolvedOf key) es p.resolved

section Paired

variable (sha256 : Bytes → Bytes32) (id : NodeId) (m : OpMeta)

theorem precedingSet_lt_iff (k : Nat) :
    precedingSet ((walk sha256 l).nodes id) m < (k : WithBot Nat) ↔ AfterPrecedingSet l id m k := by
  constructor
  · intro h e he hpub hlt
    have hmem : e.opMeta.lamport ∈
        (((walk sha256 l).nodes id).anchorSetLamportsByDevice m.device).filter (· < m.lamport) :=
      Finset.mem_filter.mpr ⟨(walk_setLamports ..).mpr ⟨e, he, hpub, rfl⟩, hlt⟩
    exact WithBot.coe_lt_coe.mp (lt_of_le_of_lt (Finset.le_max hmem) h)
  · intro h
    cases hmax : precedingSet ((walk sha256 l).nodes id) m with
    | bot => exact WithBot.bot_lt_coe k
    | coe j =>
      obtain ⟨hmem, hlt⟩ := Finset.mem_filter.mp (Finset.mem_of_max hmax)
      obtain ⟨e, he, hpub, rfl⟩ := (walk_setLamports ..).mp hmem
      exact WithBot.coe_lt_coe.mpr (h e he hpub hlt)

theorem scopesAt_lamport {d : DeviceFingerprint} {k : Nat} (h : (scopesAt id d k e).isSome) :
    e.opMeta.lamport = k := by
  obtain ⟨m, op, hfit⟩ := e
  cases op with
  | nodeAnchorScopes i scopes =>
    by_contra hne
    simp [scopesAt, hne] at h
  | _ => cases h

theorem mem_scopeLamports_iff (k : Nat) :
    k ∈ scopeLamports ((walk sha256 l).nodes id) m ↔
      ∃ e ∈ l, e.opMeta.lamport = k ∧ ∃ v, ScopesFor l id m e v := by
  unfold scopeLamports
  rw [mem_filter, decide_eq_true_iff, precedingSet_lt_iff, ← AList.mem_keys,
    ← AList.lookup_isSome, walk_scopes, last_isSome_iff]
  constructor
  · intro h
    obtain ⟨⟨e, he, hsome⟩, hafter, hle⟩ := h
    have hk := scopesAt_lamport id hsome
    obtain ⟨v, hv⟩ := isSome_iff_exists.mp hsome
    subst hk
    exact ⟨e, he, rfl, v, hv, hle, hafter⟩
  · intro h
    obtain ⟨e, he, rfl, v, hv, hle, hafter⟩ := h
    exact ⟨⟨e, he, by rw [hv]; rfl⟩, hafter, hle⟩

theorem greatestScopes_published (hl : l.Pairwise fun a b => a.rank ≤ b.rank) :
    GreatestScopes l id m (publishedScopes ((walk sha256 l).nodes id) m) := by
  have hrange := mem_scopeLamports_iff sha256 (l := l) id m
  unfold publishedScopes
  cases hmax : (scopeLamports ((walk sha256 l).nodes id) m).max? with
  | none =>
    rw [max?_eq_none_iff] at hmax
    intro e he v hv
    have hmem := (hrange _).mpr ⟨e, he, rfl, v, hv⟩
    rw [hmax] at hmem
    cases hmem
  | some k =>
    obtain ⟨hk, hmost⟩ := max?_eq_some_iff.mp hmax
    obtain ⟨e₀, he₀, hk₀, v₀, hat₀, hle, hafter⟩ := (hrange k).mp hk
    rw [hk₀] at hat₀ hle hafter
    -- the value stored at the greatest lamport is the last one stated there
    have hgreatest : Greatest rank (scopesAt id m.device k) l _ := greatest_last hl
    rw [bind_some, walk_scopes]
    cases hlast : last (scopesAt id m.device k) l with
    | none =>
      rw [hlast] at hgreatest
      rw [hgreatest e₀ he₀] at hat₀
      cases hat₀
    | some v =>
      rw [hlast] at hgreatest
      obtain ⟨e, he, hat, hmaxrank⟩ := hgreatest
      have hlam : e.opMeta.lamport = k := scopesAt_lamport id (by rw [hat]; rfl)
      refine ⟨e, he, ⟨hlam ▸ hat, hlam ▸ hle, hlam ▸ hafter⟩, fun e' he' v' hv' => ?_⟩
      have hk' := hmost _ ((hrange _).mpr ⟨e', he', rfl, v', hv'⟩)
      rcases Nat.lt_or_eq_of_le hk' with hlt | heq
      · exact (Prod.Lex.toLex_lt_toLex.mpr (Or.inl (hlam ▸ hlt))).le
      · exact hmaxrank e' he' (by rw [← heq, hv'.1]; rfl)

end Paired

/-! ### The whole projection -/

theorem GreatestScopes.congr {m : OpMeta} {o : Option AnchorScopes} (h : GreatestScopes l id m o)
    (hmem : ∀ e, e ∈ l ↔ e ∈ l') : GreatestScopes l' id m o := by
  have hfor : ∀ e v, ScopesFor l' id m e v ↔ ScopesFor l id m e v := by
    intro e v
    simp only [ScopesFor, AfterPrecedingSet, hmem]
  cases o with
  | none =>
    intro e he v hv
    exact h e ((hmem e).mpr he) v ((hfor e v).mp hv)
  | some v =>
    obtain ⟨e, he, hv, hmax⟩ := h
    exact ⟨e, (hmem e).mp he, (hfor e v).mpr hv, fun e' he' v' hv' =>
      hmax e' ((hmem e').mpr he') v' ((hfor e' v').mp hv')⟩

section Whole

variable (sha256 : Bytes → Bytes32) (es : List Entry)

theorem mem_inTotalOrder (e : Entry) : e ∈ inTotalOrder es ↔ e ∈ es := mem_sorted rank

theorem greatest_walk {β : Type} (sel : Entry → Option β) :
    Greatest rank sel es (last sel (inTotalOrder es)) :=
  (greatest_last (pairwise_sorted rank es)).congr (mem_inTotalOrder es)

theorem contentOf_of_creates (h : Creates id e) : (contentOf id e).isSome := by
  obtain ⟨c, hc⟩ := h
  simp [contentOf, hc]

theorem project_node_isSome (id : NodeId) :
    ((project sha256 es).nodes id).isSome ↔ ∃ e ∈ es, Creates id e := by
  have hexists := walk_existsNode sha256 (inTotalOrder es) id
  simp only [mem_inTotalOrder] at hexists
  show (finishNode ((walk sha256 (inTotalOrder es)).nodes id)).isSome ↔ _
  rw [← hexists, finishNode, isSome_map]
  by_cases hc : ((walk sha256 (inTotalOrder es)).nodes id).existsNode = true
  · rw [if_pos hc, walk_content, last_isSome_iff]
    obtain ⟨e, he, hcreates⟩ := hexists.mp hc
    exact iff_of_true ⟨e, (mem_inTotalOrder es e).mpr he, contentOf_of_creates hcreates⟩ hc
  · rw [if_neg hc]
    exact iff_of_false Bool.false_ne_true hc

theorem project_node {n : ProjectedNode} (h : (project sha256 es).nodes id = some n) :
    NodeIs es id n := by
  have hfinish : finishNode ((walk sha256 (inTotalOrder es)).nodes id) = some n := h
  unfold finishNode at hfinish
  obtain ⟨content, hcontent, rfl⟩ := map_eq_some_iff.mp hfinish
  have hstored : ((walk sha256 (inTotalOrder es)).nodes id).content = some content := by
    by_cases hc : ((walk sha256 (inTotalOrder es)).nodes id).existsNode = true
    · rwa [if_pos hc] at hcontent
    · rw [if_neg hc] at hcontent
      cases hcontent
  have hanchors := greatest_walk es (anchorsOf id)
  rw [← walk_anchors sha256] at hanchors
  constructor
  · rw [← hstored, walk_content]
    exact greatest_walk es _
  · refine ⟨_, greatest_walk es (statusOf id), ?_⟩
    rw [← walk_status sha256]
    rfl
  · exact ⟨_, hanchors, rfl, rfl⟩
  · intro hnone
    simp only at hnone
    simp [hnone]
  · intro m hm
    simp only at hm
    simp only [hm, bind_some, walk_sourceTextHash]
    exact greatest_walk es _
  · intro m hm
    simp only at hm
    have hscopes := greatestScopes_published sha256 id m (pairwise_sorted rank es)
    refine ⟨_, hscopes.congr (mem_inTotalOrder es), ?_⟩
    simp only [hm, bind_some]
    rfl

/-- The entry adds the edge. -/
def AddsEdge (key : EdgeKey) (e : Entry) : Prop :=
  ∃ edge, e.op = .edgeAdd edge ∧ edge.edgeKey sha256 = key

theorem specOf_isSome_iff (key : EdgeKey) (e : Entry) :
    (specOf sha256 key e).isSome ↔ AddsEdge sha256 key e := by
  obtain ⟨m, op, hfit⟩ := e
  cases op with
  | edgeAdd edge =>
    by_cases h : edge.edgeKey sha256 = key
    · simp [specOf, AddsEdge, h]
    · simp [specOf, AddsEdge, h]
  | _ => simp [specOf, AddsEdge]

theorem presenceOf_of_addsEdge {key : EdgeKey} (h : AddsEdge sha256 key e) :
    (presenceOf sha256 key e).isSome := by
  obtain ⟨edge, hop, hkey⟩ := h
  simp [presenceOf, hop, hkey]

theorem presenceOf_canonical (key : EdgeKey) (e : Entry) :
    presenceOf sha256 key e.canonical = presenceOf sha256 key e := by
  obtain ⟨m, op, hfit⟩ := e
  cases op <;> rfl

theorem edgeRow_isSome_iff (present : Bool) (acc : EdgeAccum) :
    (edgeRow present acc).isSome ↔ acc.spec.isSome ∧ acc.present = present := by
  unfold edgeRow
  cases acc.spec with
  | none => simp
  | some spec => by_cases h : acc.present = present <;> simp [h]

/-- **An edge has a row exactly if it was added, on the side of its greatest add or remove.** -/
theorem edgeRow_walk_isSome (present : Bool) (key : EdgeKey) :
    (edgeRow present ((walk sha256 (inTotalOrder es)).edges key)).isSome ↔
      (∃ e ∈ es, AddsEdge sha256 key e) ∧
        Greatest rank (presenceOf sha256 key) es (some present) := by
  have hadded : ((walk sha256 (inTotalOrder es)).edges key).spec.isSome ↔
      ∃ e ∈ es, AddsEdge sha256 key e := by
    rw [walk_spec, last_isSome_iff]
    simp only [mem_inTotalOrder, specOf_isSome_iff]
  rw [edgeRow_isSome_iff, hadded, walk_present]
  refine and_congr_right fun hadd => ?_
  obtain ⟨e, he, hadds⟩ := hadd
  have hgreatest := greatest_walk es (presenceOf sha256 key)
  obtain ⟨b, hb⟩ := isSome_iff_exists.mp
    (hgreatest.isSome_iff.mpr ⟨e, he, presenceOf_of_addsEdge sha256 hadds⟩)
  rw [hb] at hgreatest ⊢
  constructor
  · intro h
    exact h ▸ hgreatest
  · intro h
    have hsel : ∀ a b : Entry, a.rank = b.rank →
        presenceOf sha256 key a = presenceOf sha256 key b := by
      intro a b hrank
      rw [← presenceOf_canonical, canonical_eq_of_rank_eq a b hrank, presenceOf_canonical]
    exact some.inj (hgreatest.unique h hsel)

theorem edgeRow_walk {present : Bool} {key : EdgeKey} {p : ProjectedEdge}
    (h : edgeRow present ((walk sha256 (inTotalOrder es)).edges key) = some p) :
    EdgeIs sha256 es key p := by
  unfold edgeRow at h
  cases hspec : ((walk sha256 (inTotalOrder es)).edges key).spec with
  | none =>
    rw [hspec] at h
    cases h
  | some spec =>
    simp only [hspec, ite_none_right_eq_some, some.injEq] at h
    obtain ⟨-, rfl⟩ := h
    constructor
    · rw [← hspec, walk_spec]
      exact greatest_walk es _
    · rw [walk_resolved]
      exact greatest_walk es _

/-! ### The wire -/

/-- The entry as a peer reads it from the wire. -/
def ReceivedAs (e e' : Entry) : Prop :=
  e'.opMeta = e.opMeta ∧ decode (encode e.op) = .ok (.known e'.op)

theorem ReceivedAs.eq_canonical (h : ReceivedAs e e') (hlimits : withinWireLimits e.op = true) :
    e' = e.canonical := by
  obtain ⟨hmeta, hop⟩ := h
  rw [(decode_encode e.fits).2 hlimits] at hop
  obtain ⟨m', op', hfit'⟩ := e'
  simp only [Except.ok.injEq, DecodedOp.known.injEq] at hmeta hop
  subst hmeta hop
  rfl

variable {es}

theorem forall₂_received (h : ∀ e ∈ es, withinWireLimits e.op = true) (es' : List Entry) :
    List.Forall₂ ReceivedAs es es' ↔ es' = es.map canonical := by
  induction es generalizing es' with
  | nil => simp
  | cons e es ih =>
    have hhead := h e mem_cons_self
    have htail := ih (forall_mem_cons.mp h).2
    constructor
    · intro hall
      obtain ⟨e', rest, hrec, hrest, rfl⟩ := List.forall₂_cons_left_iff.mp hall
      rw [map_cons, hrec.eq_canonical hhead, (htail rest).mp hrest]
    · intro heq
      subst heq
      exact List.Forall₂.cons ⟨rfl, (decode_encode e.fits).2 hhead⟩ ((htail _).mpr rfl)

end Whole

/-- **The projection is a convergent join of last-writer registers.** The order of the entries is not
    seen; a node is there exactly if it was created, and it and its edges are what the greatest
    entries state; and entries within the wire limits may be replaced by what a peer decodes. -/
theorem project_converges (sha256 : Bytes → Bytes32) (es : List Entry) :
    (∀ es' : List Entry, es'.Perm es → project sha256 es' = project sha256 es) ∧
    (∀ id, ((project sha256 es).nodes id).isSome ↔ ∃ e ∈ es, Creates id e) ∧
    (∀ id n, (project sha256 es).nodes id = some n → NodeIs es id n) ∧
    (∀ key, ((project sha256 es).edges key).isSome ↔
      (∃ e ∈ es, AddsEdge sha256 key e) ∧ Greatest rank (presenceOf sha256 key) es (some true)) ∧
    (∀ key, ((project sha256 es).removedEdges key).isSome ↔
      (∃ e ∈ es, AddsEdge sha256 key e) ∧ Greatest rank (presenceOf sha256 key) es (some false)) ∧
    (∀ key p, (project sha256 es).edges key = some p ∨ (project sha256 es).removedEdges key = some p →
      EdgeIs sha256 es key p) ∧
    ((∀ e ∈ es, withinWireLimits e.op = true) →
      (∃ es', List.Forall₂ ReceivedAs es es') ∧
        ∀ es', List.Forall₂ ReceivedAs es es' → project sha256 es' = project sha256 es) := by
  refine ⟨fun es' h => project_perm sha256 h, project_node_isSome sha256 es,
    fun id n h => project_node sha256 es h, edgeRow_walk_isSome sha256 es true,
    edgeRow_walk_isSome sha256 es false, fun key p h => ?_, fun hlimits => ⟨?_, ?_⟩⟩
  · rcases h with h | h
    · exact edgeRow_walk sha256 es h
    · exact edgeRow_walk sha256 es h
  · exact ⟨_, (forall₂_received hlimits _).mpr rfl⟩
  · intro es' hreceived
    rw [(forall₂_received hlimits es').mp hreceived]
    exact project_map_canonical sha256 es

/-- A note that is created with its tags out of order, bound twice and then linked. -/
def noteLog : List Entry :=
  [⟨⟨1, 7⟩, .nodeCreate "n" ⟨"note", "t", "b", "high", "agent", ["y", "x", "y"], none⟩,
      by decide +kernel⟩,
   ⟨⟨2, 7⟩, .nodeAnchorScopes "n" [⟨"symbol", "s", "h"⟩, ⟨"path", "p", "g"⟩], by decide +kernel⟩,
   ⟨⟨2, 9⟩, .nodeStatus "n" .stale, by decide +kernel⟩,
   ⟨⟨3, 7⟩, .edgeAdd ⟨"n", .dependsOn, "r", "node", "k", "r"⟩, by decide +kernel⟩]

theorem project_converges_noteLog :
    (∀ e ∈ noteLog, withinWireLimits e.op = true) ∧
      (∃ es', List.Forall₂ ReceivedAs noteLog es') ∧
      ∀ es', List.Forall₂ ReceivedAs noteLog es' →
        project (fun _ => 0) es' = project (fun _ => 0) noteLog := by
  have hlimits : ∀ e ∈ noteLog, withinWireLimits e.op = true := by decide +kernel
  exact ⟨hlimits, (project_converges (fun _ => 0) noteLog).2.2.2.2.2.2 hlimits⟩

end RagRat.Memory
