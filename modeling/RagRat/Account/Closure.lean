/-
  File:      RagRat/Account/Closure.lean
  Subject:   FRESHNESS AND THE CLOSURE over effective entries: what happens between the replay of the
             effects and the facts.

  * `normalizeAuthEpochs` -- the effective entries renumbered without gaps.
  * `revocationCredit`, `citedAhead` -- how long a control log an op may cite, with what the cuts it ran
    beside took out of the count given back.
  * `settleAuthorityDependencies` -- the effective ops without their prerequisite fall.
  * `closeFinalAuthorityDependencies` -- settle, measure, park what is ahead, until nothing is.
-/
import RagRat.Account.Depth

namespace RagRat.Account

open Lib.Register Lib.Keyed Lib.Loop

/-- The sum of two `u64`, which stays at the greatest one. -/
def saturatingAdd (a b : Nat) : Nat := min (a + b) (2 ^ 64 - 1)

/-! ## 1. Epochs -/

/-- The epoch of an effective entry. -/
def Outcome.authEpoch : Outcome → Option Nat
  | .effective epoch => some epoch
  | _ => none

/-- The epoch of a hash. -/
def Outcomes.authEpoch (o : Outcomes) (h : EntryHash) : Option Nat := (o h).bind Outcome.authEpoch

/-- The effective entries in the order of `(epoch, hash)`. -/
def effectiveByEpoch (candidates : List Candidate) (o : Outcomes) : List (Nat ×ₗ EntryHash) :=
  sorted id (candidates.filterMap fun c => (o.authEpoch c.hash).map fun epoch => toLex (epoch, c.hash))

/-- The effective entries take the epochs `0, 1, …` in their order; returns their number. -/
def normalizeAuthEpochs (candidates : List Candidate) (o : Outcomes) : Nat × Outcomes :=
  let effective := effectiveByEpoch candidates o
  (effective.length,
   insertAll (fun x => (ofLex x.1).2) (fun x => some (.effective x.2)) effective.zipIdx o)

/-! ## 2. The credit of a cut -/

/-- Which entries a cut may count: all it scopes, or of those the ones its author named. -/
inductive CreditScope where
  | everyScopedEntry
  | nominated (eligible : Finset EntryHash)

/-- Whether the scope lets a hash count. -/
def CreditScope.admits (scope : CreditScope) (h : EntryHash) : Bool :=
  match scope with
  | .everyScopedEntry => true
  | .nominated eligible => h ∈ eligible

/-- The credit counted so far and the mints among what was counted. -/
structure CreditTally where
  credit : Nat := 0
  closedMints : Finset EntryHash := ∅
  deriving DecidableEq

/-- One more entry, with its mint if it is one. -/
def CreditTally.count (t : CreditTally) (c : Candidate) : CreditTally :=
  ⟨t.credit + 1, if c.isMint then insert c.hash t.closedMints else t.closedMints⟩

/-- The outcome is a condemnation. -/
def Outcome.isCondemned : Outcome → Bool
  | .condemned _ => true
  | _ => false

/-- The cut itself is never counted. -/
def countable (cut : Candidate) (scope : CreditScope) (c : Candidate) : Bool :=
  c.hash ≠ cut.hash && scope.admits c.hash

section

variable (o : Outcomes) (cut : Candidate) (scope : CreditScope)

/-- A condemned entry under one of the cut's own keys. -/
def isVictim (c : Candidate) : Bool :=
  countable cut scope c && (o c.hash).any Outcome.isCondemned &&
    (cutOpRegisters cut).any fun r => r.1.scopes c.header

section

variable (t : CreditTally) (c : Candidate)

/-- An entry that lost its authority with a counted mint. -/
def isOrphan : Bool :=
  countable cut scope c && o c.hash = some (.rejected .staleAuthority) &&
    (Incarnations.authorIncarnationId c).any (· ∈ t.closedMints)

/-- An entry that the cut itself condemns. -/
def countVictim : CreditTally :=
  if isVictim o cut scope c then t.count c else t

/-- An entry that lost its author to the cut. -/
def countOrphan : CreditTally :=
  if isOrphan o cut scope t c then t.count c else t

end

end

/-- The entries a cut took out of the effective count. -/
def revocationCredit (candidates : List Candidate) (strata : List (Nat × List Candidate))
    (o : Outcomes) (cut : Candidate) (scope : CreditScope) : Nat :=
  let victims := candidates.foldl (countVictim o cut scope) {}
  ((strata.flatMap Prod.snd).foldl (countOrphan o cut scope) victims).credit

/-! ## 3. Cited ahead -/

/-- The effective cuts with their credit and cited length, and every effective op of a device. -/
structure VouchTable where
  cuts : List (EntryHash × Nat × Nat)
  chains : DeviceFingerprint → List (Nat × Nat)

/-- The effective candidates. -/
def effectiveOf (candidates : List Candidate) (o : Outcomes) : List Candidate :=
  candidates.filter fun c => o.isEffective c.hash

/-- The effective cuts with their credit, and what each device's entries cite. -/
def vouchTable (candidates : List Candidate) (credits : EntryHash → Option Nat) (o : Outcomes) :
    VouchTable where
  cuts := ((effectiveOf candidates o).filter fun c => cutOpRegisters c ≠ []).filterMap fun c =>
    (credits c.hash).map fun credit => (c.hash, credit, c.header.authLen)
  chains d := ((effectiveOf candidates o).filter fun c => c.header.deviceFingerprint = d).map
    fun c => (c.header.seq, c.header.authLen)

namespace VouchTable

section

variable (table : VouchTable) (op : Candidate)

/-- The cuts other than the op itself. -/
def others : List (EntryHash × Nat × Nat) :=
  table.cuts.filter fun x => x.1 ≠ op.hash

/-- What the other cuts condemned, as far as they gave it back to themselves. -/
def condemnedCredit : Nat :=
  (table.others op).foldl (fun sum x => saturatingAdd sum x.2.1) 0

/-- The ops of its own chain below the op that cite at least `cited`. -/
def ownSince (cited : Nat) : Nat :=
  (table.chains op.header.deviceFingerprint).countP fun x =>
    x.1 < op.header.seq ∧ x.2 ≥ cited

/-- The most another cut cites, with the op's own entries since. -/
def ceiling : Nat :=
  ((table.others op).map fun x => saturatingAdd x.2.2 (table.ownSince op x.2.2)).foldl max 0

end

end VouchTable

/-- What the effective cuts vouch for an op that was written beside them. -/
def concurrentVouch (table : VouchTable) (op : Candidate) (base : Nat) : Nat :=
  if table.condemnedCredit op = 0 then 0
  else min (table.condemnedCredit op) (table.ceiling op - base)

/-- The op cites more control log than there is, even with what is vouched for it. -/
def citedAhead (table : VouchTable) (op : Candidate) (base credit : Nat) : Bool :=
  let measure := saturatingAdd base credit
  op.header.authLen > measure &&
    op.header.authLen > saturatingAdd measure (concurrentVouch table op base)

/-- An entry that is condemned, or parked because its account is contested. -/
def Outcome.isBystander : Outcome → Bool
  | .condemned _ | .parked .contestedSubject => true
  | _ => false

/-! ## 4. Settling -/

/-- The devices an op enrolls. -/
def Candidate.enrolls (c : Candidate) : Option DeviceFingerprint :=
  match c.op with
  | .accountGenesis _ => some c.header.deviceFingerprint
  | .deviceAdd d _ => some d
  | _ => none

/-- The grant an op makes. -/
def Candidate.grants (c : Candidate) : Option (GrantId × StreamId × AccountId) :=
  match c.op with
  | .streamGrant streamId grantee _ => some (c.hash, streamId, grantee)
  | _ => none

section

variable (candidates : List Candidate) (o : Outcomes)

/-- The devices enrolled. -/
def effectiveRoster : List DeviceFingerprint :=
  (effectiveOf candidates o).filterMap Candidate.enrolls

/-- The public streams owned. -/
def effectivePublicOwnership : List StreamId :=
  (effectiveOf candidates o).filterMap fun c => c.op.publicStream

/-- A grant id is the hash of its grant, so the table holds one row under it. -/
def effectiveGrants :
    List (GrantId × StreamId × AccountId) :=
  (effectiveOf candidates o).filterMap Candidate.grants

/-- The op has the state it needs: an enrollment, a public stream, or the grant. -/
def stateSupports (op : AccountOp) : Bool :=
  match op with
  | .ownerPromote d => d ∈ effectiveRoster candidates o
  | .streamGrant streamId _ _ => streamId ∈ effectivePublicOwnership candidates o
  | .streamRevoke streamId grantee grantId _ =>
    (grantId, streamId, grantee) ∈ effectiveGrants candidates o
  | _ => true

end

/-- The outcome of an op whose cited incarnation is not effective. -/
def orphanOutcome : Option Outcome → Outcome
  | some (.parked reason) => .parked reason
  | _ => .rejected .staleAuthority

section

variable (candidates : List Candidate)

/-- What an effective op falls to if a prerequisite is gone: the citation in the running outcomes
    `o`, the state in those of the sweep's start. -/
def replacement (start o : Outcomes) (c : Candidate) :
    Option Outcome :=
  if c.header.authorityRef.any (fun a => !o.isEffective a) then
    some (orphanOutcome (c.header.authorityRef.bind o))
  else if !stateSupports candidates start c.op then some (.rejected .ineffective)
  else none

/-- One entry of a sweep; the flag says that something fell. -/
def settleStep (start : Outcomes) (s : Outcomes × Bool)
    (c : Candidate) : Outcomes × Bool :=
  if !s.1.isEffective c.hash then s
  else
    match replacement candidates start s.1 c with
    | some outcome => (s.1.insert c.hash outcome, true)
    | none => s

/-- One sweep over the candidates; another follows if something fell. -/
def settleTurn (o : Outcomes) : Outcomes ⊕ Outcomes :=
  let swept := candidates.foldl (settleStep candidates o) (o, false)
  if swept.2 then .inl swept.1 else .inr swept.1

/-- A sweep after which another follows takes an effective entry away: the bound is enough. -/
def settleAuthorityDependencies (o : Outcomes) : Outcomes :=
  (loop (settleTurn candidates) (candidates.length + 1) o).getD o

end

/-! ## 5. Closing -/

/-- The entries found ahead, parked. -/
def parkAhead (ahead : List Candidate) (o : Outcomes) : Outcomes :=
  insertAll Candidate.hash (fun _ => some (.parked .authLenAhead)) ahead o

section

variable (candidates : List Candidate) (credits : EntryHash → Option Nat)

/-- The entries effective before the settlement that cite ahead of it, each beside the others. -/
def aheadOf
    (before settled : Outcomes) (count : Nat) : List Candidate :=
  (effectiveOf candidates before).filter fun c =>
    citedAhead (vouchTable candidates credits settled) c
      (count - if settled.isEffective c.hash then 1 else 0) ((credits c.hash).getD 0)

/-- One round, on the outcomes and what was discovered so far. -/
def closeTurn
    (s : Outcomes × Outcomes) : (Outcomes × Outcomes) ⊕ (Outcomes × Outcomes) :=
  let (count, settled) := normalizeAuthEpochs candidates (settleAuthorityDependencies candidates s.1)
  let ahead := aheadOf candidates credits s.1 settled count
  if ahead.isEmpty then .inr (settled, s.2)
  else .inl (parkAhead ahead settled, parkAhead ahead s.2)

/-- The closed outcomes and the entries found ahead; `close_rule`. -/
def closeFinalAuthorityDependencies (o : Outcomes) : Outcomes × Outcomes :=
  (loop (closeTurn candidates credits) (candidates.length + 1) (o, fun _ => none)).getD
    (o, fun _ => none)

end

end RagRat.Account
