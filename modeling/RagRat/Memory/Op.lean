/-
  File:      RagRat/Memory/Op.lean
  Subject:   THE MEMORY OPS and their wire form, an envelope `[domain, op-kind, payload]`.

  * `MemoryOp` -- the ten ops over nodes and edges; `MemoryOp.canonical` -- the op with its tags,
    anchors and scopes in the order the encoder writes them.
  * `encode` / `decode` -- the canonical CBOR of an op, and its reader: a known op, an op this
    binary does not know (kept as bytes), or an error.
  * `canonical_eq_of_encode_eq` -- equal bytes come from ops with one canonical form.
  * `decode_encode` -- within the wire limits an encoded op is read back in canonical form.

  `FitsBuffer` is the one bound on sizes: the encoding is shorter than `2 ^ 64` bytes, as every
  buffer of the machine is.
-/
import Mathlib.Data.List.Destutter
import Mathlib.Data.Prod.Lex
import Mathlib.Data.String.Basic
import RagRat.Lib.Register
import RagRat.Wire

namespace RagRat.Memory

open List
open Lib.Cbor Lib.Register Wire

/-! ## 1. Data types -/

/-- A memory node. -/
abbrev NodeId := String

/-- An edge, by its key. -/
abbrev EdgeKey := String

/-- The status of a node. -/
inductive NodeStatus where
  | active | stale | obsolete | rejected
  deriving DecidableEq

namespace NodeStatus

instance : Inhabited NodeStatus := ⟨active⟩

def asDbStr : NodeStatus → String
  | active => "active"
  | stale => "stale"
  | obsolete => "obsolete"
  | rejected => "rejected"

def fromDbStr : String → Option NodeStatus
  | "active" => some active
  | "stale" => some stale
  | "obsolete" => some obsolete
  | "rejected" => some rejected
  | _ => none

theorem fromDbStr_asDbStr (s : NodeStatus) : fromDbStr s.asDbStr = some s := by
  cases s <;> rfl

end NodeStatus

/-- What an edge says. -/
inductive EdgeRelation where
  | dependsOn | relatesTo | supersedes | derivedFrom | tracks
  deriving DecidableEq

namespace EdgeRelation

def asDbStr : EdgeRelation → String
  | dependsOn => "depends_on"
  | relatesTo => "relates_to"
  | supersedes => "supersedes"
  | derivedFrom => "derived_from"
  | tracks => "tracks"

def fromDbStr : String → Option EdgeRelation
  | "depends_on" => some dependsOn
  | "relates_to" => some relatesTo
  | "supersedes" => some supersedes
  | "derived_from" => some derivedFrom
  | "tracks" => some tracks
  | _ => none

theorem fromDbStr_asDbStr (r : EdgeRelation) : fromDbStr r.asDbStr = some r := by
  cases r <;> rfl

end EdgeRelation

/-- What a node says. -/
structure NodeContent where
  kind : String
  title : String
  body : String
  confidence : String
  source : String
  tags : List String
  payload : Option String
  deriving DecidableEq

/-- Tags are a set, written sorted and without repetition. -/
def canonicalTags (tags : List String) : List String :=
  (tags.insertionSort (· ≤ ·)).destutter (· ≠ ·)

/-- With its tags sorted, each once. -/
def NodeContent.canonicalize (c : NodeContent) : NodeContent :=
  { c with tags := canonicalTags c.tags }

/-- An edge as it is added. -/
structure EdgeSpec where
  sourceNodeId : NodeId
  relation : EdgeRelation
  targetRepoId : String
  targetKind : String
  targetAnchor : String
  ownerRepoId : String
  deriving DecidableEq

/-- The key of an edge: the hex `sha256` of what identifies it, the repositories left out. -/
def EdgeSpec.edgeKey (sha256 : Bytes → Bytes32) (e : EdgeSpec) : EdgeKey :=
  hexLower (sha256 (utf8 (e.sourceNodeId ++ "\u001e" ++ e.relation.asDbStr ++ "\u001e" ++
    e.targetKind ++ "\u001e" ++ e.targetAnchor))).toBytes

/-- Where an edge's anchor was found. -/
structure ResolvedAnchor where
  targetRepoId : String
  targetNodeId : Option String
  anchorStatus : String
  deriving DecidableEq

/-- What a node is bound to, in terms any checkout reads. -/
structure PortableAnchor where
  bindingKind : String
  bindingId : String
  path : Option String
  startLine : Option Int64
  endLine : Option Int64
  commitHash : Option String
  tracker : Option String
  project : Option String
  itemKey : Option String
  createdAtMs : Int64
  symbolKind : Option String
  signatureHash : Option String
  monikerTool : Option String
  monikerToolVersion : Option String
  deriving DecidableEq

/-- The scope hash of an anchor. -/
structure AnchorScope where
  bindingKind : String
  bindingId : String
  scopeHash : String
  deriving DecidableEq

/-- A row of a set on the wire is named by its binding, whatever else it carries. -/
class IdentifiedRow (T : Type) where
  identity : T → String ×ₗ String

open IdentifiedRow (identity)

instance : IdentifiedRow PortableAnchor := ⟨fun a => toLex (a.bindingKind, a.bindingId)⟩

instance : IdentifiedRow AnchorScope := ⟨fun a => toLex (a.bindingKind, a.bindingId)⟩

/-- **The operations of the memory log.** -/
inductive MemoryOp where
  | nodeCreate (nodeId : NodeId) (content : NodeContent)
  | nodeUpdate (nodeId : NodeId) (content : NodeContent)
  | nodeStatus (nodeId : NodeId) (status : NodeStatus)
  | edgeAdd (edge : EdgeSpec)
  | edgeRemove (edgeKey : EdgeKey)
  | rebind (edgeKey : EdgeKey) (resolved : ResolvedAnchor)
  | nodeAnchors (nodeId : NodeId) (anchors : List PortableAnchor)
  | nodeSourceHash (nodeId : NodeId) (sourceTextHash : String)
  | nodeAnchorScopes (nodeId : NodeId) (scopes : List AnchorScope)
  | snapshot
  deriving DecidableEq

/-- The tag on the wire. -/
def MemoryOp.kindTag : MemoryOp → String
  | nodeCreate _ _ => "node_create"
  | nodeUpdate _ _ => "node_update"
  | nodeStatus _ _ => "node_status"
  | edgeAdd _ => "edge_add"
  | edgeRemove _ => "edge_remove"
  | rebind _ _ => "rebind"
  | nodeAnchors _ _ => "node_anchors"
  | nodeSourceHash _ _ => "node_source_hash"
  | nodeAnchorScopes _ _ => "node_anchor_scopes"
  | snapshot => "snapshot"

/-! ## 2. Canonical order -/

/-- Rows by identity; rows of one identity keep their order. -/
def sortRows {T : Type} [IdentifiedRow T] (rows : List T) : List T := sorted identity rows

/-- What the decoder makes of the encoding. -/
def MemoryOp.canonical : MemoryOp → MemoryOp
  | nodeCreate id content => nodeCreate id content.canonicalize
  | nodeUpdate id content => nodeUpdate id content.canonicalize
  | nodeAnchors id anchors => nodeAnchors id (sortRows anchors)
  | nodeAnchorScopes id scopes => nodeAnchorScopes id (sortRows scopes)
  | op => op

theorem canonicalTags_idem (tags : List String) :
    canonicalTags (canonicalTags tags) = canonicalTags tags := by
  have hsorted : (canonicalTags tags).Pairwise (· ≤ ·) :=
    (pairwise_insertionSort (· ≤ ·) tags).sublist (destutter_sublist _ _)
  show List.destutter _ ((canonicalTags tags).insertionSort _) = _
  rw [hsorted.insertionSort_eq]
  exact destutter_idem _ _

section Rows

variable {T : Type} [IdentifiedRow T]

theorem sortRows_idem (rows : List T) : sortRows (sortRows rows) = sortRows rows :=
  (pairwise_sorted identity rows).insertionSort_eq

theorem map_identity_sortRows (rows : List T) :
    (sortRows rows).map identity = (rows.map identity).insertionSort (· ≤ ·) :=
  map_insertionSort _ _ _ _ fun _ _ _ _ => Iff.rfl

end Rows

/-! ## 3. Encoding -/

/-- A text or null. -/
def encodeOptStr : Option String → Bytes
  | some text => putStr text
  | none => putNull

/-- A number or null. -/
def encodeOptI64 : Option Int64 → Bytes
  | some number => putInt number
  | none => putNull

/-- A node's content, tags sorted. -/
def encodeContent (c : NodeContent) : Bytes :=
  putArray 7 ++ putStr c.kind ++ putStr c.title ++ putStr c.body ++ putStr c.confidence ++
    putStr c.source ++ putList putStr (canonicalTags c.tags) ++ encodeOptStr c.payload

/-- An edge. -/
def encodeEdgeSpec (e : EdgeSpec) : Bytes :=
  putArray 6 ++ putStr e.sourceNodeId ++ putStr e.relation.asDbStr ++ putStr e.targetRepoId ++
    putStr e.targetKind ++ putStr e.targetAnchor ++ putStr e.ownerRepoId

/-- A resolved anchor. -/
def encodeResolved (r : ResolvedAnchor) : Bytes :=
  putArray 3 ++ putStr r.targetRepoId ++ encodeOptStr r.targetNodeId ++ putStr r.anchorStatus

/-- Rows in the order of their identities. -/
def encodeIdentitySet {T : Type} [IdentifiedRow T] (write : T → Bytes) (items : List T) : Bytes :=
  putList write (sortRows items)

/-- An anchor. -/
def encodeAnchor (a : PortableAnchor) : Bytes :=
  putArray 14 ++ putStr a.bindingKind ++ putStr a.bindingId ++ encodeOptStr a.path ++
    encodeOptI64 a.startLine ++ encodeOptI64 a.endLine ++ encodeOptStr a.commitHash ++
    encodeOptStr a.tracker ++ encodeOptStr a.project ++ encodeOptStr a.itemKey ++
    putInt a.createdAtMs ++ encodeOptStr a.symbolKind ++ encodeOptStr a.signatureHash ++
    encodeOptStr a.monikerTool ++ encodeOptStr a.monikerToolVersion

/-- An anchor's scope. -/
def encodeAnchorScope (s : AnchorScope) : Bytes :=
  putArray 3 ++ putStr s.bindingKind ++ putStr s.bindingId ++ putStr s.scopeHash

/-- The anchors of a node. -/
def encodeAnchors (anchors : List PortableAnchor) : Bytes := encodeIdentitySet encodeAnchor anchors

/-- The scopes of a node. -/
def encodeAnchorScopes (scopes : List AnchorScope) : Bytes :=
  encodeIdentitySet encodeAnchorScope scopes

/-- What follows the tag. -/
def encodePayload : MemoryOp → Bytes
  | .nodeCreate id content | .nodeUpdate id content =>
    putArray 2 ++ putStr id ++ encodeContent content
  | .nodeStatus id status => putArray 2 ++ putStr id ++ putStr status.asDbStr
  | .edgeAdd edge => encodeEdgeSpec edge
  | .edgeRemove key => putStr key
  | .rebind key resolved => putArray 2 ++ putStr key ++ encodeResolved resolved
  | .nodeAnchors id anchors => putArray 2 ++ putStr id ++ encodeAnchors anchors
  | .nodeSourceHash id hash => putArray 2 ++ putStr id ++ putStr hash
  | .nodeAnchorScopes id scopes => putArray 2 ++ putStr id ++ encodeAnchorScopes scopes
  | .snapshot => putNull

/-- The tag of a memory op. -/
def domain : String := "rag-rat/op/1"

/-- **The wire form.** -/
def encode (op : MemoryOp) : Bytes :=
  putArray 3 ++ putStr domain ++ putStr op.kindTag ++ encodePayload op

/-- The encoding is short enough to be held in memory. -/
def FitsBuffer (op : MemoryOp) : Prop := (encode op).length < 2 ^ 64

instance : DecidablePred FitsBuffer := fun _ => inferInstanceAs (Decidable (_ < _))

theorem kindTag_canonical (op : MemoryOp) : op.canonical.kindTag = op.kindTag := by
  cases op <;> rfl

theorem encodeContent_canonicalize (c : NodeContent) :
    encodeContent c.canonicalize = encodeContent c := by
  simp only [encodeContent, NodeContent.canonicalize, canonicalTags_idem]

theorem encodeIdentitySet_sortRows {T : Type} [IdentifiedRow T] (write : T → Bytes)
    (items : List T) : encodeIdentitySet write (sortRows items) = encodeIdentitySet write items := by
  unfold encodeIdentitySet
  rw [sortRows_idem]

theorem encode_canonical (op : MemoryOp) : encode op.canonical = encode op := by
  have hpayload : encodePayload op.canonical = encodePayload op := by
    cases op with
    | nodeCreate id c => exact congrArg (_ ++ ·) (encodeContent_canonicalize c)
    | nodeUpdate id c => exact congrArg (_ ++ ·) (encodeContent_canonicalize c)
    | nodeAnchors id as => exact congrArg (_ ++ ·) (encodeIdentitySet_sortRows encodeAnchor as)
    | nodeAnchorScopes id ss => exact congrArg (_ ++ ·) (encodeIdentitySet_sortRows encodeAnchorScope ss)
    | _ => rfl
  unfold encode
  rw [hpayload, kindTag_canonical]

theorem FitsBuffer.canonical {op : MemoryOp} (h : FitsBuffer op) : FitsBuffer op.canonical := by
  unfold FitsBuffer
  rwa [encode_canonical]

/-! ## 4. Decoding -/

/-- An op, or one of a kind this build does not know. -/
inductive DecodedOp where
  | known (op : MemoryOp)
  | unknown (tag : String) (raw : Bytes)
  deriving DecidableEq

/-- A text or null. -/
def decodeOptStr : Decoder (Option String) := do
  if (← datatype) = .null then
    getNull
    pure none
  else
    some <$> getStr

/-- A number or null. -/
def decodeOptI64 : Decoder (Option Int64) := do
  if (← datatype) = .null then
    getNull
    pure none
  else
    some <$> getInt

/-- A node's content. -/
def decodeContent : Decoder NodeContent := do
  expectArray 7
  let kind ← getStr
  let title ← getStr
  let body ← getStr
  let confidence ← getStr
  let source ← getStr
  let tags ← decodeStrArray
  let payload ← decodeOptStr
  pure { kind, title, body, confidence, source, tags, payload }

/-- A node and its content. -/
def decodeNodeContent : Decoder (NodeId × NodeContent) := do
  expectArray 2
  let nodeId ← getStr
  let content ← decodeContent
  pure (nodeId, content)

/-- `none` for a status token this binary does not know. -/
def decodeNodeStatus : Decoder (Option MemoryOp) := do
  expectArray 2
  let nodeId ← getStr
  let token ← getStr
  pure ((NodeStatus.fromDbStr token).map (.nodeStatus nodeId))

/-- The whole spec is read before its relation is judged; `none` for an unknown relation. -/
def decodeEdgeSpec : Decoder (Option EdgeSpec) := do
  expectArray 6
  let sourceNodeId ← getStr
  let token ← getStr
  let targetRepoId ← getStr
  let targetKind ← getStr
  let targetAnchor ← getStr
  let ownerRepoId ← getStr
  pure ((EdgeRelation.fromDbStr token).map fun relation =>
    { sourceNodeId, relation, targetRepoId, targetKind, targetAnchor, ownerRepoId })

/-- A resolved anchor. -/
def decodeResolved : Decoder ResolvedAnchor := do
  expectArray 3
  let targetRepoId ← getStr
  let targetNodeId ← decodeOptStr
  let anchorStatus ← getStr
  pure { targetRepoId, targetNodeId, anchorStatus }

/-- An edge and its resolved anchor. -/
def decodeRebind : Decoder (EdgeKey × ResolvedAnchor) := do
  expectArray 2
  let key ← getStr
  let resolved ← decodeResolved
  pure (key, resolved)

/-- An anchor. -/
def decodeAnchor : Decoder PortableAnchor := do
  expectArray 14
  let bindingKind ← getStr
  let bindingId ← getStr
  let path ← decodeOptStr
  let startLine ← decodeOptI64
  let endLine ← decodeOptI64
  let commitHash ← decodeOptStr
  let tracker ← decodeOptStr
  let project ← decodeOptStr
  let itemKey ← decodeOptStr
  let createdAtMs ← getInt
  let symbolKind ← decodeOptStr
  let signatureHash ← decodeOptStr
  let monikerTool ← decodeOptStr
  let monikerToolVersion ← decodeOptStr
  pure { bindingKind, bindingId, path, startLine, endLine, commitHash, tracker, project, itemKey,
         createdAtMs, symbolKind, signatureHash, monikerTool, monikerToolVersion }

/-- An anchor's scope. -/
def decodeAnchorScope : Decoder AnchorScope := do
  expectArray 3
  let bindingKind ← getStr
  let bindingId ← getStr
  let scopeHash ← getStr
  pure { bindingKind, bindingId, scopeHash }

/-- The anchors one op may carry. -/
def maxAnchorsPerOp : Nat := 64

section IdentitySet

variable {T : Type} [IdentifiedRow T]

/-- The next item must lie strictly above the last one read. -/
def requireAbove (op : String) (out : List T) (item : T) : Decoder Unit :=
  if out.getLast?.any (fun previous => identity item ≤ identity previous) then
    fail (.message (op ++ " must be strictly increasing by (binding_kind, binding_id)"))
  else
    pure ()

/-- Rows with ascending identities. -/
def decodeIdentityItems (op : String) (read : Decoder T) : List T → Nat → Decoder (List T)
  | out, 0 => pure out
  | out, n + 1 => do
    let item ← read
    requireAbove op out item
    decodeIdentityItems op read (out ++ [item]) n

/-- A bounded array of them. -/
def decodeIdentitySet (op noun : String) (read : Decoder T) : Decoder (List T) := do
  let len ← expectDefiniteLen
  if maxAnchorsPerOp < len then
    fail (.message s!"{op} carries {len} {noun}, over the {maxAnchorsPerOp} limit")
  else
    decodeIdentityItems op read [] len

end IdentitySet

/-- The anchors of a node. -/
def decodeAnchors : Decoder (List PortableAnchor) :=
  decodeIdentitySet "node_anchors" "anchors" decodeAnchor

/-- The scopes of a node. -/
def decodeAnchorScopes : Decoder (List AnchorScope) :=
  decodeIdentitySet "node_anchor_scopes" "scopes" decodeAnchorScope

/-- A node and its anchors. -/
def decodeNodeAnchors : Decoder (NodeId × List PortableAnchor) := do
  expectArray 2
  let nodeId ← getStr
  let anchors ← decodeAnchors
  pure (nodeId, anchors)

/-- The payload of a kind; `none` for a kind or a token this binary does not know. -/
def decodePayload (kind : String) : Decoder (Option MemoryOp) :=
  match kind with
  | "node_create" => do
    let (nodeId, content) ← decodeNodeContent
    pure (some (.nodeCreate nodeId content))
  | "node_update" => do
    let (nodeId, content) ← decodeNodeContent
    pure (some (.nodeUpdate nodeId content))
  | "node_status" => decodeNodeStatus
  | "edge_add" => do
    let edge ← decodeEdgeSpec
    pure (edge.map .edgeAdd)
  | "edge_remove" => do
    let key ← getStr
    pure (some (.edgeRemove key))
  | "rebind" => do
    let (key, resolved) ← decodeRebind
    pure (some (.rebind key resolved))
  | "node_anchors" => do
    let (nodeId, anchors) ← decodeNodeAnchors
    pure (some (.nodeAnchors nodeId anchors))
  | "node_source_hash" => do
    expectArray 2
    let nodeId ← getStr
    let hash ← getStr
    pure (some (.nodeSourceHash nodeId hash))
  | "node_anchor_scopes" => do
    expectArray 2
    let nodeId ← getStr
    let scopes ← decodeAnchorScopes
    pure (some (.nodeAnchorScopes nodeId scopes))
  | "snapshot" => do
    getNull
    pure (some .snapshot)
  | _ => pure none

/-- The tag of a memory op, with an error of its own. -/
def expectOpDomain : Decoder Unit := do
  let got ← getStr
  if got = domain then pure ()
  else fail (.message ("unknown op domain tag `" ++ got ++ "` (expected `" ++ domain ++ "`)"))

/-- The envelope up to its end: the kind, and the op if it is known. -/
def decodeEnvelope : Decoder (String × Option MemoryOp) := do
  expectArray 3
  expectOpDomain
  let kind ← getStr
  let op ← decodePayload kind
  pure (kind, op)

/-- A known op is spelled as the encoder spells it; an unknown one is canonical CBOR. -/
def decode (bytes : Bytes) : Except Error DecodedOp := do
  let ((kind, op), _) ← decodeEnvelope bytes
  match op with
  | some op =>
    if encode op = bytes then .ok (.known op)
    else .error (.message "non-canonical op encoding")
  | none =>
    requireCanonicalCbor bytes
    .ok (.unknown kind bytes)

/-- Few enough rows, and no two of one identity. -/
def identitiesUnique {T : Type} [IdentifiedRow T] (items : List T) : Bool :=
  items.length ≤ maxAnchorsPerOp ∧ ((items.map identity).insertionSort (· ≤ ·)).IsChain (· ≠ ·)

/-- What the decoder asks of an op besides its form. -/
def withinWireLimits : MemoryOp → Bool
  | .nodeAnchors _ anchors => identitiesUnique anchors
  | .nodeAnchorScopes _ scopes => identitiesUnique scopes
  | _ => true

/-! ## 5. Records are read back -/

theorem fit_decodeOptStr (o : Option String) : ReadsFit decodeOptStr (encodeOptStr o) o := by
  cases o with
  | none => exact ReadsFit.peek (fun _ => rfl) (reads_getNull.fit.bind_pure rfl)
  | some s => exact ReadsFit.peek (datatype_putStr s) ((fit_getStr s).map some)

theorem fit_decodeOptI64 (o : Option Int64) : ReadsFit decodeOptI64 (encodeOptI64 o) o := by
  cases o with
  | none => exact ReadsFit.peek (fun _ => rfl) (reads_getNull.fit.bind_pure rfl)
  | some n =>
    obtain ⟨t, ht, hpeek⟩ := datatype_putInt n
    refine ReadsFit.peek hpeek ?_
    rcases ht with rfl | rfl
    · exact (reads_getInt n).fit.map some
    · exact (reads_getInt n).fit.map some

theorem fit_decodeContent (c : NodeContent) :
    ReadsFit decodeContent (encodeContent c) c.canonicalize := by
  simp only [encodeContent, append_assoc]
  exact (fit_expectArray (by decide)).bind <| (fit_getStr _).bind <| (fit_getStr _).bind <|
    (fit_getStr _).bind <| (fit_getStr _).bind <| (fit_getStr _).bind <|
    (fit_decodeStrArray _).bind <| (fit_decodeOptStr _).bind_pure rfl

theorem fit_decodeNodeContent (id : NodeId) (c : NodeContent) :
    ReadsFit decodeNodeContent (putArray 2 ++ putStr id ++ encodeContent c) (id, c.canonicalize) := by
  rw [append_assoc]
  exact (fit_expectArray (by decide)).bind <| (fit_getStr _).bind <|
    (fit_decodeContent c).bind_pure rfl

theorem fit_decodeNodeStatus (id : NodeId) (status : NodeStatus) :
    ReadsFit decodeNodeStatus (putArray 2 ++ putStr id ++ putStr status.asDbStr)
      (some (.nodeStatus id status)) := by
  rw [append_assoc]
  refine (fit_expectArray (by decide)).bind <| (fit_getStr _).bind <| (fit_getStr _).bind_pure ?_
  rw [NodeStatus.fromDbStr_asDbStr]
  rfl

theorem fit_decodeEdgeSpec (e : EdgeSpec) : ReadsFit decodeEdgeSpec (encodeEdgeSpec e) (some e) := by
  simp only [encodeEdgeSpec, append_assoc]
  refine (fit_expectArray (by decide)).bind <| (fit_getStr _).bind <| (fit_getStr _).bind <|
    (fit_getStr _).bind <| (fit_getStr _).bind <| (fit_getStr _).bind <|
    (fit_getStr _).bind_pure ?_
  rw [EdgeRelation.fromDbStr_asDbStr]
  rfl

theorem fit_decodeResolved (r : ResolvedAnchor) : ReadsFit decodeResolved (encodeResolved r) r := by
  simp only [encodeResolved, append_assoc]
  exact (fit_expectArray (by decide)).bind <| (fit_getStr _).bind <|
    (fit_decodeOptStr _).bind <| (fit_getStr _).bind_pure rfl

theorem fit_decodeRebind (key : EdgeKey) (r : ResolvedAnchor) :
    ReadsFit decodeRebind (putArray 2 ++ putStr key ++ encodeResolved r) (key, r) := by
  rw [append_assoc]
  exact (fit_expectArray (by decide)).bind <| (fit_getStr _).bind <|
    (fit_decodeResolved r).bind_pure rfl

theorem fit_decodeAnchor (a : PortableAnchor) : ReadsFit decodeAnchor (encodeAnchor a) a := by
  simp only [encodeAnchor, append_assoc]
  exact (fit_expectArray (by decide)).bind <| (fit_getStr _).bind <| (fit_getStr _).bind <|
    (fit_decodeOptStr _).bind <| (fit_decodeOptI64 _).bind <| (fit_decodeOptI64 _).bind <|
    (fit_decodeOptStr _).bind <| (fit_decodeOptStr _).bind <| (fit_decodeOptStr _).bind <|
    (fit_decodeOptStr _).bind <| (reads_getInt _).fit.bind <| (fit_decodeOptStr _).bind <|
    (fit_decodeOptStr _).bind <| (fit_decodeOptStr _).bind <| (fit_decodeOptStr _).bind_pure rfl

theorem fit_decodeAnchorScope (s : AnchorScope) :
    ReadsFit decodeAnchorScope (encodeAnchorScope s) s := by
  simp only [encodeAnchorScope, append_assoc]
  exact (fit_expectArray (by decide)).bind <| (fit_getStr _).bind <| (fit_getStr _).bind <|
    (fit_getStr _).bind_pure rfl

theorem encodeAnchor_ne_nil (a : PortableAnchor) : encodeAnchor a ≠ [] := by
  simp [encodeAnchor, putArray, head_ne_nil]

theorem encodeAnchorScope_ne_nil (s : AnchorScope) : encodeAnchorScope s ≠ [] := by
  simp [encodeAnchorScope, putArray, head_ne_nil]

/-! ## 6. Equal bytes, one canonical op

The decoder refuses a set of rows that is too long or names one row twice, yet the encoder writes
such sets as well. They are told apart by a reader that does not judge the rows. -/

/-- The payload of an op of the kind of `op`, its rows read but not judged. -/
def readPayload : MemoryOp → Decoder (Option MemoryOp)
  | .nodeAnchors _ _ => do
    expectArray 2
    let nodeId ← getStr
    let anchors ← decodeList decodeAnchor
    pure (some (.nodeAnchors nodeId anchors))
  | .nodeAnchorScopes _ _ => do
    expectArray 2
    let nodeId ← getStr
    let scopes ← decodeList decodeAnchorScope
    pure (some (.nodeAnchorScopes nodeId scopes))
  | op => decodePayload op.kindTag

/-- Whether an op carries a set of rows, which the decoder judges. -/
def MemoryOp.carriesRows : MemoryOp → Bool
  | .nodeAnchors _ _ | .nodeAnchorScopes _ _ => true
  | _ => false

theorem fit_decodePayload {op : MemoryOp} (h : op.carriesRows = false) :
    ReadsFit (decodePayload op.kindTag) (encodePayload op) (some op.canonical) := by
  cases op with
  | nodeCreate id c => exact (fit_decodeNodeContent id c).bind_pure rfl
  | nodeUpdate id c => exact (fit_decodeNodeContent id c).bind_pure rfl
  | nodeStatus id s => exact fit_decodeNodeStatus id s
  | edgeAdd e => exact (fit_decodeEdgeSpec e).bind_pure rfl
  | edgeRemove key => exact (fit_getStr key).bind_pure rfl
  | rebind key r => exact (fit_decodeRebind key r).bind_pure rfl
  | nodeSourceHash id hash =>
    simp only [encodePayload, append_assoc]
    exact (fit_expectArray (by decide)).bind <| (fit_getStr _).bind <| (fit_getStr _).bind_pure rfl
  | snapshot => exact reads_getNull.fit.bind_pure rfl
  | nodeAnchors _ _ => cases h
  | nodeAnchorScopes _ _ => cases h

theorem fit_readPayload (op : MemoryOp) :
    ReadsFit (readPayload op) (encodePayload op) (some op.canonical) := by
  cases op with
  | nodeAnchors id anchors =>
    simp only [encodePayload, append_assoc]
    exact (fit_expectArray (by decide)).bind <| (fit_getStr _).bind <|
      (fit_decodeList (fun a _ => encodeAnchor_ne_nil a) fun a _ =>
        fit_decodeAnchor a).bind_pure rfl
  | nodeAnchorScopes id scopes =>
    simp only [encodePayload, append_assoc]
    exact (fit_expectArray (by decide)).bind <| (fit_getStr _).bind <|
      (fit_decodeList (fun s _ => encodeAnchorScope_ne_nil s) fun s _ =>
        fit_decodeAnchorScope s).bind_pure rfl
  | _ => exact fit_decodePayload rfl

theorem readPayload_of_kindTag {op op' : MemoryOp} (h : op.kindTag = op'.kindTag) :
    readPayload op = readPayload op' := by
  cases op <;> cases op' <;> first | rfl | simp [MemoryOp.kindTag] at h

theorem fit_expectOpDomain : ReadsFit expectOpDomain (putStr domain) () :=
  (fit_getStr domain).bind_pure (if_pos rfl)

/-- The envelope's prefix, read in front of any payload: its kind. -/
def readKind : Decoder String := do
  expectArray 3
  expectOpDomain
  getStr

theorem fit_readKind (kind : String) :
    ReadsFit readKind (putArray 3 ++ putStr domain ++ putStr kind) kind := by
  rw [append_assoc]
  exact (fit_expectArray (by decide)).bind <| fit_expectOpDomain.bind (fit_getStr kind)

theorem canonical_eq_of_encode_eq {op op' : MemoryOp} (h : FitsBuffer op)
    (heq : encode op = encode op') : op.canonical = op'.canonical := by
  have hkind := fit_readKind op.kindTag
  have hkind' := fit_readKind op'.kindTag
  have hlen : (encode op).length < 2 ^ 64 := h
  have hlen' : (encode op').length < 2 ^ 64 := heq ▸ h
  unfold encode at heq hlen hlen'
  rw [length_append] at hlen hlen'
  have hread := hkind (by omega) (encodePayload op)
  rw [heq, hkind' (by omega) (encodePayload op')] at hread
  simp only [Except.ok.injEq, Prod.mk.injEq] at hread
  obtain ⟨htag, hpayload⟩ := hread
  have hop := fit_readPayload op
  have hop' := fit_readPayload op'
  rw [hpayload, readPayload_of_kindTag htag] at hop'
  exact Option.some.inj (hop.agree hop' (by omega))

/-! ## 7. An op is read back exactly within the wire limits -/

section IdentitySet

variable {T : Type} [IdentifiedRow T] {op noun : String} {read : Decoder T} {write : T → Bytes}

theorem judges_requireAbove (out : List T) (item : T) :
    Judges (requireAbove op out item) [] ()
      (∀ previous ∈ out.getLast?, identity previous < identity item) := by
  refine (Reads.pure ()).fit.judges.check.iff ?_
  cases out.getLast? <;> simp

theorem judges_decodeIdentityItems (h : ∀ x, ReadsFit read (write x) x) (out items : List T) :
    Judges (decodeIdentityItems op read out items.length) (items.flatMap write) (out ++ items)
      (((out.getLast?.toList ++ items).map identity).IsChain (· < ·)) := by
  induction items generalizing out with
  | nil =>
    rw [append_nil]
    refine (Reads.pure out).fit.judges.iff ?_
    cases out.getLast? <;> simp
  | cons item items ih =>
    have htail := ih (out ++ [item])
    rw [append_assoc, singleton_append, getLast?_concat] at htail
    rw [flatMap_cons]
    refine ((h item).andThen ((judges_requireAbove out item).nil_bind htail)).iff ?_
    cases out.getLast? <;> simp

theorem isChain_sortRows_iff (rows : List T) :
    ((sortRows rows).map identity).IsChain (· < ·) ↔
      ((rows.map identity).insertionSort (· ≤ ·)).IsChain (· ≠ ·) := by
  have hsorted := (pairwise_insertionSort (· ≤ ·) (rows.map identity)).isChain
  rw [map_identity_sortRows]
  refine ⟨fun h => h.imp fun _ _ hlt => hlt.ne, fun h => ?_⟩
  rw [isChain_iff_getElem] at h hsorted ⊢
  exact fun i hi => lt_of_le_of_ne (hsorted i hi) (h i hi)

theorem judges_decodeIdentitySet (hne : ∀ x, write x ≠ []) (h : ∀ x, ReadsFit read (write x) x)
    (rows : List T) :
    Judges (decodeIdentitySet op noun read) (encodeIdentitySet write rows) (sortRows rows)
      (identitiesUnique rows = true) := by
  intro hlen
  have hcount := reads_expectDefiniteLen (length_lt_of_putList (fun x _ => hne x) hlen)
  refine ((hcount.fit.andThen (judges_decodeIdentityItems h [] _).check).iff ?_) hlen
  unfold identitiesUnique
  rw [decide_eq_true_iff, ← isChain_sortRows_iff, not_lt, sortRows,
    (sorted_perm identity rows).length_eq]
  rfl

end IdentitySet

theorem judges_decodePayload (op : MemoryOp) :
    Judges (decodePayload op.kindTag) (encodePayload op) (some op.canonical)
      (withinWireLimits op = true) := by
  cases op with
  | nodeAnchors id anchors =>
    have hread : Judges decodeNodeAnchors (putArray 2 ++ (putStr id ++ encodeAnchors anchors))
        (id, sortRows anchors) (identitiesUnique anchors = true) :=
      (fit_expectArray (by decide)).andThen <| (fit_getStr _).andThen <|
        (judges_decodeIdentitySet encodeAnchor_ne_nil fit_decodeAnchor anchors).bind_pure rfl
    rw [encodePayload, append_assoc]
    exact hread.bind_pure rfl
  | nodeAnchorScopes id scopes =>
    simp only [encodePayload, append_assoc]
    exact (fit_expectArray (by decide)).andThen <| (fit_getStr _).andThen <|
      (judges_decodeIdentitySet encodeAnchorScope_ne_nil fit_decodeAnchorScope scopes).bind_pure rfl
  | _ => exact (fit_decodePayload rfl).judges.iff (iff_of_true trivial rfl)

theorem judges_decodeEnvelope (op : MemoryOp) :
    Judges decodeEnvelope (encode op) (op.kindTag, some op.canonical) (withinWireLimits op = true) := by
  simp only [encode, append_assoc]
  exact (fit_expectArray (by decide)).andThen <| fit_expectOpDomain.andThen <|
    (fit_getStr _).andThen <| (judges_decodePayload op).bind_pure rfl

theorem decode_eq : decode = Wire.decodeEnvelope decodeEnvelope encode .known .unknown
    "non-canonical op encoding" := by
  funext bytes
  unfold decode Wire.decodeEnvelope
  congr! with x
  rcases x with ⟨⟨kind, _ | op⟩, rest⟩
  · rfl
  · rfl

theorem decode_encode {op : MemoryOp} (hfit : FitsBuffer op) :
    ((∃ d, decode (encode op) = .ok d) ↔ withinWireLimits op = true) ∧
      (withinWireLimits op = true → decode (encode op) = .ok (.known op.canonical)) := by
  rw [decode_eq]
  exact decodeEnvelope_encode (judges_decodeEnvelope op) hfit (encode_canonical op)

theorem encode_of_decode {bytes : Bytes} {op : MemoryOp} (h : decode bytes = .ok (.known op)) :
    encode op = bytes := by
  rw [decode_eq] at h
  refine encode_of_decodeEnvelope (fun _ _ => DecodedOp.known.inj) ?_ h
  nofun

/-- **The codec is a canonical bijection.** An op is read back exactly when it is within the wire
    limits, and then in canonical form; bytes read as a known op are its encoding, so no two byte
    strings are read as one known op. -/
theorem codec_canonical :
    (∀ op, FitsBuffer op →
      ((∃ d, decode (encode op) = .ok d) ↔ withinWireLimits op = true) ∧
      (withinWireLimits op = true → decode (encode op) = .ok (.known op.canonical))) ∧
    (∀ bytes op, decode bytes = .ok (.known op) → encode op = bytes) ∧
    ∀ bytes bytes' op, decode bytes = .ok (.known op) → decode bytes' = .ok (.known op) →
      bytes = bytes' := by
  refine ⟨fun op => decode_encode, fun _ _ => encode_of_decode, ?_⟩
  intro bytes bytes' op h h'
  rw [← encode_of_decode h, ← encode_of_decode h']

/-- Two scopes in the wrong order are read back in order; the same scope twice is not read. -/
theorem codec_canonical_scopes :
    decode (encode (.nodeAnchorScopes "n" [⟨"path", "b", "h"⟩, ⟨"path", "a", "h"⟩])) =
        .ok (.known (.nodeAnchorScopes "n" [⟨"path", "a", "h"⟩, ⟨"path", "b", "h"⟩])) ∧
      ¬ ∃ d, decode (encode (.nodeAnchorScopes "n" [⟨"path", "a", "h"⟩, ⟨"path", "a", "h"⟩])) =
        .ok d := by
  constructor
  · exact (codec_canonical.1 _ (by decide +kernel)).2 (by decide +kernel)
  · intro h
    have hlimits := (codec_canonical.1 _ (by decide +kernel)).1.mp h
    revert hlimits
    decide +kernel

end RagRat.Memory
