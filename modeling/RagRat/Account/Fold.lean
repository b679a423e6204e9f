/-
  File:      RagRat/Account/Fold.lean
  Subject:   THE ACCOUNT FOLD: a set of verified entries to the outcome of each, the account's class and its
             authority facts.

  * `foldAccountPass` -- one stratified pass with some entries held out as authored ahead.
  * `foldAccountTraced` -- passes until no further entry is found ahead; with the registers of the last.
-/
import RagRat.Account.Facts

namespace RagRat.Account

open Lib.Register Lib.Keyed Lib.Loop
open Lib.Cbor (Bytes)

/-! ## 1. Reading the entries -/

/-- The first entry of each hash. -/
def dedupByHash : List EntryHash → List VerifiedAccountEntry → List VerifiedAccountEntry
  | _, [] => []
  | seen, e :: rest =>
    if e.entryHash ∈ seen then dedupByHash seen rest
    else e :: dedupByHash (e.entryHash :: seen) rest

namespace VerifiedAccountEntry

section

variable (e : VerifiedAccountEntry)

/-- A plaintext op of the control log at the version this fold knows. -/
def foldable : Bool :=
  e.header.logId = controlLog ∧ e.header.opVersion = supportedOpVersion ∧ e.header.cryptoSuite = 0

/-- Every entry but a malformed one is a link of its chain. -/
def heldHeader : Option AccountEntryHeader :=
  if e.foldable ∧ e.decoded = .malformed then none else some e.header

/-- An entry that is not folded has its outcome at once. -/
def readOutcome : Option Outcome :=
  if !e.foldable then some .retainedUnfolded
  else
    match e.decoded with
    | .malformed => some (.rejected .malformed)
    | .unknown => some .retainedUnfolded
    | .known _ => none

/-- An entry that is folded. -/
def candidate : Option Candidate :=
  if !e.foldable then none
  else
    match e.decoded with
    | .known op => some ⟨e, op⟩
    | .malformed | .unknown => none

end

end VerifiedAccountEntry

open VerifiedAccountEntry

/-- The held headers, by hash. -/
def headersOf (entries : List VerifiedAccountEntry) : HeaderView :=
  insertAll entryHash heldHeader entries fun _ => none

/-- The outcomes of what is not folded. -/
def readOutcomes (entries : List VerifiedAccountEntry) : Outcomes :=
  insertAll entryHash readOutcome entries fun _ => none

/-! ## 2. The genesis -/

/-- A genesis in the canonical root shape, signed by the founder its account id commits to. -/
def isRoot (sha256 : Bytes → Bytes32) (c : Candidate) : Bool :=
  match c.op with
  | .accountGenesis pubkey =>
    let h := c.header
    h.seq = 0 ∧ h.logId = controlLog ∧ h.prevHash = none ∧ h.parentRef = none ∧
      h.authorityRef = none ∧ h.authLen = 0 ∧ c.entry.payloadAccountId = h.accountId ∧
      h.deviceFingerprint = sha256 pubkey
  | _ => false

/-- The root of least hash. -/
def findGenesis (sha256 : Bytes → Bytes32) (candidates : List Candidate) : Option Candidate :=
  (sorted Candidate.hash (candidates.filter (isRoot sha256))).head?

/-! ## 3. Strata -/

section

variable (exclusions : Outcomes) (inc : Incarnations) (founder : DeviceFingerprint)

/-- The outcome of a candidate that no stratum takes in. -/
def heldOut
    (c : Candidate) : Option Outcome :=
  if (exclusions c.hash).isSome then exclusions c.hash
  else if c.header.seq = 0 ∧ c.header.deviceFingerprint = founder ∧ c.hash ≠ inc.genesisOwnerId then
    some (.rejected .nonGenesisOrigin)
  else if (inc.authorDepth c).isNone then some (.parked .unknownOwnerRef)
  else none

/-- The candidates of one depth. -/
def membersAt
    (depth : Nat) : List Candidate :=
  inc.candidates.filter fun c =>
    (heldOut exclusions inc founder c).isNone ∧ inc.authorDepth c = some depth

end

/-- The depths that have members, ascending; the number of candidates bounds them. -/
def strataOver (members : Nat → List Candidate) (depths : List Nat) : List (Nat × List Candidate) :=
  (depths.map fun d => (d, members d)).filter fun s => !s.2.isEmpty

/-- The depths that have members, in ascending order. -/
def strataOf (exclusions : Outcomes) (inc : Incarnations) (founder : DeviceFingerprint) :
    List (Nat × List Candidate) :=
  strataOver (membersAt exclusions inc founder) (List.range inc.candidates.length)

/-! ## 4. After the depths -/

/-- The strata whose effects are replayed: all, or those before the contested one. -/
def AccountClassification.replays (classification : AccountClassification) (depth : Nat) : Bool :=
  match classification with
  | .live => true
  | .contested before => depth < before

/-- The effects again from the seeded state, under the final verdicts. -/
def replayEffectState (ctx : FoldContext) (strata : List (Nat × List Candidate))
    (classification : AccountClassification) (verdicts : FoldVerdicts) (o : Outcomes) :
    FoldState × Outcomes :=
  (strata.takeWhile fun s => classification.replays s.1).foldl
    (fun s stratum => effectPass ctx.incarnations verdicts stratum.2 s)
    (FoldState.seeded ctx.incarnations.genesisOwnerId, o)

/-- A final condemnation, else a final parking. -/
def overlayOutcome (verdicts : FoldVerdicts) (c : Candidate) : Option Outcome :=
  ((verdicts.condemned c.hash).map .condemned).or ((verdicts.parked c.hash).map .parked)

/-- The registers' verdicts over the outcomes. -/
def overlayVerdicts (candidates : List Candidate) (verdicts : FoldVerdicts) (o : Outcomes) :
    Outcomes :=
  insertAll Candidate.hash (overlayOutcome verdicts) candidates o

/-- The account a re-root names. -/
def Candidate.successor (c : Candidate) : Option AccountId :=
  match c.op with
  | .accountReRoot successor => some successor
  | _ => none

open Candidate

/-- A re-root counts in a contested account if an owner with an open incarnation signed it. -/
def admitsReRoot (inc : Incarnations) (state : FoldState) (verdicts : FoldVerdicts)
    (c : Candidate) : Bool :=
  c.successor.isSome && (verdicts.condemned c.hash).isNone &&
    authorityStatus c inc state verdicts.parked = .live &&
    (Incarnations.authorIncarnationId c).any fun id =>
      state.owners.lookup c.header.deviceFingerprint = some id

/-- One admitted re-root. -/
def reRootStep (s : FoldState × Outcomes) (c : Candidate) : FoldState × Outcomes :=
  (s.1.takeEpoch.2, s.2.insert c.hash s.1.takeEpoch.1)

/-- The order re-roots are admitted in: `none` does not occur. -/
def Candidate.reRootRank (c : Candidate) : AccountId ×ₗ EntryHash :=
  toLex (c.successor.getD 0, c.hash)

/-- In a contested account the re-roots take effect and every undecided candidate parks. -/
def contestedOutcomes (ctx : FoldContext) (verdicts : FoldVerdicts) (s : FoldState × Outcomes) :
    Outcomes :=
  let reroots := sorted reRootRank
    (ctx.candidates.filter (admitsReRoot ctx.incarnations s.1 verdicts))
  let rerooted := (reroots.foldl reRootStep s).2
  insertAll hash
    (fun c => some ((rerooted c.hash).getD (.parked .contestedSubject))) ctx.candidates rerooted

/-- The least successor an effective re-root names. -/
def contestedSuccessor (candidates : List Candidate) (o : Outcomes) : Option AccountId :=
  (sorted id ((effectiveOf candidates o).filterMap successor)).head?

/-! ## 5. Readiness -/

/-- What each cut in the registers gives back. -/
def creditsOf (ctx : FoldContext) (strata : List (Nat × List Candidate))
    (contributors : Finset EntryHash) (o : Outcomes) : EntryHash → Option Nat :=
  insertAll hash
    (fun c =>
      if c.hash ∈ contributors then
        some (revocationCredit ctx.candidates strata o c .everyScopedEntry)
      else none)
    ctx.candidates fun _ => none

/-- What a pass ends with: its closed outcomes, what was found ahead, and what it measures against.
    -/
structure Readiness where
  exclusions : Outcomes
  contributors : Finset EntryHash
  credits : EntryHash → Option Nat
  outcomes : Outcomes
  effectiveCount : Nat
  vouches : VouchTable

namespace Readiness

/-- A contributor that cites ahead of the fold. -/
def contributorAhead (r : Readiness) (c : Candidate) : Bool :=
  (r.exclusions c.hash).isNone && c.hash ∈ r.contributors &&
    citedAhead r.vouches c r.effectiveCount ((r.credits c.hash).getD 0)

/-- A condemned or contested entry that cites ahead of the fold. -/
def bystanderAhead (r : Readiness) (c : Candidate) : Bool :=
  (r.exclusions c.hash).isNone && c.hash ∉ r.contributors &&
    (r.outcomes c.hash).any Outcome.isBystander &&
    citedAhead r.vouches c r.effectiveCount 0

/-- What is held out of the next pass: bystanders only if no cut was found ahead. -/
def discover (r : Readiness) (candidates : List Candidate) (closed : Outcomes) : Outcomes :=
  let cuts := parkAhead (candidates.filter r.contributorAhead) closed
  if candidates.any fun c => c.hash ∈ r.contributors ∧ (cuts c.hash).isSome then cuts
  else parkAhead (candidates.filter r.bystanderAhead) cuts

end Readiness

/-! ## 6. One pass -/

/-- **What a fold answers**: the outcomes, the class, and the facts of the effective entries. -/
structure AccountAuthHistory where
  outcomes : Outcomes
  classification : AccountClassification
  contestedSuccessor : Option AccountId
  effectiveCount : Nat
  facts : AuthorityFacts
  tombstoned : Finset DeviceFingerprint
  genesisHash : Option EntryHash

/-- The registers of a fold and the candidates that raised them. -/
structure LegacyTrace where
  registers : Registers
  contributors : Finset EntryHash

/-- A pass: its answer, the entries it found ahead, and its registers. -/
structure PassResult where
  history : AccountAuthHistory
  discovered : Outcomes
  trace : Option LegacyTrace

/-- Without a root nothing can be authorized. -/
def rootlessResult (candidates : List Candidate) (o : Outcomes) : PassResult where
  history :=
    { outcomes := insertAll hash (fun _ => some (.parked .unknownOwnerRef)) candidates o
      classification := .live
      contestedSuccessor := none
      effectiveCount := 0
      facts := {}
      tombstoned := ∅
      genesisHash := none }
  discovered := fun _ => none
  trace := none

/-- What a pass has decided before its closure. -/
structure Decided where
  pass : DepthPass
  state : FoldState
  outcomes : Outcomes

/-- The depths, the replay under their final verdicts, the overlay, and the contested exceptions. -/
def decidePass (ctx : FoldContext) (founder : DeviceFingerprint) (exclusions o : Outcomes) : Decided :=
  let inc := ctx.incarnations
  let strata := strataOf exclusions inc founder
  let held := insertAll hash (heldOut exclusions inc founder) ctx.candidates o
  let (pass, folded) :=
    foldDepths ctx strata ({ state := FoldState.seeded inc.genesisOwnerId }, held)
  let (state, replayed) := replayEffectState ctx strata pass.classification pass.verdicts folded
  let overlaid := overlayVerdicts ctx.candidates pass.verdicts replayed
  let outcomes := match pass.classification with
    | .live => overlaid
    | .contested _ => contestedOutcomes ctx pass.verdicts (state, overlaid)
  { pass, state, outcomes }

/-- The closure, the count and the facts of what was decided. -/
def finishPass (ctx : FoldContext) (genesis : Candidate) (exclusions : Outcomes) (d : Decided) :
    PassResult :=
  let pass := d.pass
  let strata := strataOf exclusions ctx.incarnations genesis.subjectDevice
  let credits := creditsOf ctx strata pass.registerContributors d.outcomes
  let (closed, closureFound) := closeFinalAuthorityDependencies ctx.candidates credits d.outcomes
  let successor := match pass.classification with
    | .live => none
    | .contested _ => contestedSuccessor ctx.candidates closed
  let (effectiveCount, outcomes) := normalizeAuthEpochs ctx.candidates closed
  let readiness : Readiness :=
    { exclusions, contributors := pass.registerContributors, credits, outcomes, effectiveCount
      vouches := vouchTable ctx.candidates credits outcomes }
  { history :=
      { outcomes
        classification := pass.classification
        contestedSuccessor := successor
        effectiveCount
        facts := deriveAuthorityFacts genesis.header.accountId ctx.candidates outcomes pass.registers
        tombstoned := d.state.tombstoned
        genesisHash := some genesis.hash }
    discovered := readiness.discover ctx.candidates closureFound
    trace := some ⟨pass.registers, pass.registerContributors⟩ }

/-- A pass over the candidates of a rooted account. -/
def rootedResult (ctx : FoldContext) (genesis : Candidate) (exclusions o : Outcomes) : PassResult :=
  finishPass ctx genesis exclusions (decidePass ctx genesis.subjectDevice exclusions o)

/-- **One pass**, with the excluded entries held out. -/
def foldAccountPass (sha256 : Bytes → Bytes32) (entries : List VerifiedAccountEntry)
    (exclusions : Outcomes) : PassResult :=
  let held := dedupByHash [] entries
  let candidates := held.filterMap candidate
  let o := readOutcomes held
  match findGenesis sha256 candidates with
  | none => rootlessResult candidates o
  | some genesis => rootedResult ⟨⟨candidates, genesis.hash⟩, headersOf held⟩ genesis exclusions o

/-! ## 7. The fold -/

/-- The exclusions with what a pass discovered. -/
def extendExclusions (exclusions discovered : Outcomes) : Outcomes :=
  fun h => (exclusions h).or (discovered h)

section

variable (sha256 : Bytes → Bytes32) (entries : List VerifiedAccountEntry)

/-- One pass; another follows if it found a new entry ahead. -/
def foldTurn
    (exclusions : Outcomes) : Outcomes ⊕ PassResult :=
  let result := foldAccountPass sha256 entries exclusions
  if entries.any fun e => (result.discovered e.entryHash).isSome ∧ (exclusions e.entryHash).isNone then
    .inl (extendExclusions exclusions result.discovered)
  else .inr result

/-- The fold of one account's entries; the bound does not run out (`foldAccountTraced_isSome`). -/
def foldAccountTraced :
    Option PassResult :=
  loop (foldTurn sha256 entries) (entries.length + 1) fun _ => none

/-- **The fold ends**: every pass but the last holds out an entry that was not held out before. -/
theorem foldAccountTraced_isSome : (foldAccountTraced sha256 entries).isSome := by
  refine loop_isSome (fun _ => True)
    (fun exclusions => (entries.filter fun e => (exclusions e.entryHash).isNone).length)
    (fun exclusions exclusions' _ hturn => ⟨trivial, ?_⟩) trivial
    (Nat.lt_succ_of_le (List.length_filter_le _ _))
  simp only [foldTurn] at hturn
  split at hturn
  · rename_i hnew
    cases hturn
    obtain ⟨e, he, hfound⟩ := List.any_eq_true.mp hnew
    obtain ⟨hfound, hfree⟩ := of_decide_eq_true hfound
    -- what stays free was free, and `e` is no longer
    refine length_filter_lt (fun x hx => ?_) he hfree ?_
    · rw [Option.isNone_iff_eq_none] at hx ⊢
      exact (Option.or_eq_none_iff.mp hx).1
    · simp [extendExclusions, Option.isNone_iff_eq_none.mp hfree, hfound]
  · cases hturn

end

end RagRat.Account
