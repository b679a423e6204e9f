/-
  File:      RagRat/Account/Depth.lean
  Subject:   ONE DEPTH OF THE ACCOUNT FOLD: which cuts are admitted, which registers they raise, and what the
             registers condemn.

  The stages run in the order of the source: admit the cuts of live authors, reject those that close the sole
  owner, stage the joins, look for a cycle of mutual condemnation, reserve a surviving owner, commit the
  registers and this depth's extends, re-derive the condemnations, run the effects. A stage that finds the
  depth contested leaves the pass with `Except.error`.
-/
import RagRat.Account.Effects
import RagRat.Lib.Keyed
import RagRat.Lib.Loop

namespace RagRat.Account

open Lib.Register Lib.Keyed
open Function

/-! ## 1. What an op cuts -/

/-- The registers a revocation installs, of a device or of one of its incarnations. -/
def cutOpRegisters (c : Candidate) : List (RegisterKey × Cut × CutCoordinate) :=
  let account := c.header.accountId
  match c.op with
  | .deviceRemove d controlCut secretsCut _ =>
    [(.device account controlLog d, controlCut, ⟨account, controlLog, d⟩),
     (.device account secretsLog d, secretsCut, ⟨account, secretsLog, d⟩)]
  | .ownerDemote d ownerId controlCut secretsCut =>
    [(.ownerIncarnation account controlLog d ownerId, controlCut, ⟨account, controlLog, d⟩),
     (.ownerIncarnation account secretsLog d ownerId, secretsCut, ⟨account, secretsLog, d⟩)]
  | _ => []

/-- The account log a chain kind names; content chains are not of this fold. -/
def ChainKind.log : ChainKind → Option Nat
  | .ctrl => some controlLog
  | .secrets => some secretsLog
  | .content => none

/-- The register an extend raises. -/
def cutExtendRegister (c : Candidate) : Option (RegisterKey × Cut × CutCoordinate) :=
  match c.op with
  | .cutExtend kind incarnationId account d newSeq newEntryHash =>
    kind.log.map fun log =>
      (match incarnationId with
        | some ownerId => .ownerIncarnation account log d ownerId
        | none => .device account log d,
       .at newSeq newEntryHash, ⟨account, log, d⟩)
  | _ => none

/-! ## 2. What the registers say of an entry -/

/-- What the registers say of an entry. -/
inductive RegisterVerdict where
  | condemned (reason : CondemnedReason)
  | parked (reason : ParkReason)
  | clear
  deriving DecidableEq

section

variable (c : Candidate) (registers : Registers) (view : HeaderView)

/-- Some register that scopes the entry and does not cut it off answers `r` about its branch. -/
def branchIs (r : AncestryRelation) :
    Bool :=
  registers.anyScoped c.header fun cut => !beyond c.header.seq cut && ancestry c.hash cut view = r

/-- The strictest answer of the registers that scope the entry. -/
def registerVerdict : RegisterVerdict :=
  if branchIs c registers view .offBranch then .condemned .offBranch
  else if registers.anyScoped c.header (beyond c.header.seq) then .condemned .beyondCut
  else if branchIs c registers view .unknownCutTarget then .parked .unknownCutTarget
  else if branchIs c registers view .incompleteCutAncestry then .parked .incompleteCutAncestry
  else .clear

end

/-! ## 3. Joining registers -/

/-- What a join into a register would come to. -/
inductive RegisterJoin where
  | applied | contested | parked
  deriving DecidableEq

section

variable (registers : Registers) (key : RegisterKey) (cut : Cut) (view : HeaderView)

/-- The join, without doing it. -/
def joinRegisterPeek :
    RegisterJoin :=
  match registers key with
  | none => .applied
  | some existing =>
    match joinCuts existing cut view with
    | .extended _ => .applied
    | .incomparable => .contested
    | .unknown => .parked

/-- The registers with the cut joined in, left alone where the join is not decided. -/
def joinRegister :
    Registers :=
  match registers key with
  | none => update registers key (some cut)
  | some existing =>
    match joinCuts existing cut view with
    | .extended joined => update registers key (some joined)
    | .incomparable | .unknown => registers

end

/-- A revocation's cuts, joined one by one. -/
def joinAll (registers : Registers) (cuts : List (RegisterKey × Cut)) (view : HeaderView) :
    Registers :=
  cuts.foldl (fun r kc => joinRegister r kc.1 kc.2 view) registers

/-! ## 4. The pass -/

/-- Whether the fold is live, or from which depth on it is contested. -/
inductive AccountClassification where
  | live
  | contested (stateBeforeDepth : Nat)
  deriving DecidableEq

/-- A cut op that may install its registers. -/
structure AdmittedCut where
  op : Candidate
  registers : List (RegisterKey × Cut)

def AdmittedCut.hash (a : AdmittedCut) : EntryHash := a.op.hash

/-- What every stage reads: the candidates with their incarnations, and the held headers. -/
structure FoldContext where
  incarnations : Incarnations
  view : HeaderView

/-- The candidates of the fold. -/
def FoldContext.candidates (ctx : FoldContext) : List Candidate := ctx.incarnations.candidates

/-- What the pass threads through its depths. -/
structure DepthPass where
  state : FoldState
  registers : Registers := fun _ => none
  verdicts : FoldVerdicts := {}
  registerContributors : Finset EntryHash := ∅
  classification : AccountClassification := .live

namespace DepthPass

section

variable (pass : DepthPass)

/-- The registers have a say about the candidate already. -/
def stopped (c : Candidate) : Bool :=
  (pass.verdicts.condemned c.hash).isSome || (pass.verdicts.parked c.hash).isSome

/-- A verdict on one op. -/
def setCutVerdict (h : EntryHash) (o : Outcome) : DepthPass :=
  { pass with verdicts :=
      { pass.verdicts with cutVerdicts := update pass.verdicts.cutVerdicts h (some o) } }

/-- The candidates' verdicts of a stage, each under its own hash. -/
def setCutVerdicts (members : List Candidate) (verdict : Candidate → Option Outcome) :
    DepthPass :=
  { pass with verdicts :=
      { pass.verdicts with
        cutVerdicts := insertAll Candidate.hash verdict members pass.verdicts.cutVerdicts } }

/-- The account is contested at a depth; the pass halts there. -/
def contest (depth : Nat) : DepthPass :=
  { pass with classification := .contested depth }

end

end DepthPass

/-! ### Admission -/

/-- What becomes of a revocation: not asked, judged, or its cuts go on. -/
inductive Admission where
  | skip
  | verdict (outcome : Outcome)
  | admits (registers : List (RegisterKey × Cut))

/-- A demotion must name an incarnation that was minted for the demoted device. -/
def demoteBinding (inc : Incarnations) (op : AccountOp) : Option Outcome :=
  match op with
  | .ownerDemote d ownerId _ _ =>
    match inc.candidate ownerId with
    | none => some (.parked .unknownOwnerRef)
    | some target => if target.subjectDevice ≠ d then some (.rejected .wrongDevice) else none
  | _ => none

/-- A cut is admitted if no register stops it, its author is live and its watermarks are of its
    chains. -/
def admission (ctx : FoldContext) (pass : DepthPass) (c : Candidate) : Admission :=
  if pass.stopped c then .skip
  else if cutOpRegisters c = [] then .skip
  else if authorityStatus c ctx.incarnations pass.state pass.verdicts.parked ≠ .live then .skip
  else
    match demoteBinding ctx.incarnations c.op with
    | some outcome => .verdict outcome
    | none =>
      if (cutOpRegisters c).any (fun r => validateCutTarget r.2.1 r.2.2 ctx.view = .mismatch) then
        .verdict (.rejected .cutTargetMismatch)
      else .admits ((cutOpRegisters c).map fun r => (r.1, r.2.1))

/-- The verdict, if it is one. -/
def Admission.outcome : Admission → Option Outcome
  | .verdict o => some o
  | _ => none

/-- The cuts that go on. -/
def Admission.admitted (c : Candidate) : Admission → Option AdmittedCut
  | .admits registers => some ⟨c, registers⟩
  | _ => none

/-- The admitted cuts by hash, and the verdicts on the others. -/
def admitCutRegisters (ctx : FoldContext) (pass : DepthPass) (members : List Candidate) :
    DepthPass × List AdmittedCut :=
  (pass.setCutVerdicts members fun c => (admission ctx pass c).outcome,
   sorted AdmittedCut.hash (members.filterMap fun c => (admission ctx pass c).admitted c))

/-! ### The sole owner -/

/-- The op would close an open incarnation. -/
def closesOwner (owners : Owners) (a : AdmittedCut) : Bool :=
  (closesOpenIncarnation a.op.op owners).isSome

/-- A cut that closes the only owner of the depths before is rejected at once. -/
def rejectSoleOwnerCuts (pass : DepthPass) (admitted : List AdmittedCut) :
    DepthPass × List AdmittedCut :=
  if pass.state.owners.keys.length ≠ 1 then (pass, admitted)
  else
    (pass.setCutVerdicts
        ((admitted.filter (closesOwner pass.state.owners)).map AdmittedCut.op)
        fun _ => some (.rejected .lastOwner),
     admitted.filter fun a => !closesOwner pass.state.owners a)

/-! ### Staging the joins -/

/-- Every cut is joined on trial: an undecided join parks it, an incomparable pair contests the
    depth. -/
def stageJoins (view : HeaderView) (depth : Nat) :
    List AdmittedCut → Registers → DepthPass → Except DepthPass (DepthPass × List AdmittedCut)
  | [], _, pass => .ok (pass, [])
  | a :: rest, working, pass =>
    let joins := a.registers.map fun kc => joinRegisterPeek working kc.1 kc.2 view
    if .contested ∈ joins then .error (pass.contest depth)
    else if .parked ∈ joins then
      stageJoins view depth rest working (pass.setCutVerdict a.hash (.parked .unknownCutTarget))
    else do
      let (pass', kept) ← stageJoins view depth rest (joinAll working a.registers view) pass
      pure (pass', a :: kept)

/-- The joins over the registers of the pass. -/
def stageRegisterJoins (ctx : FoldContext) (depth : Nat) (pass : DepthPass)
    (admitted : List AdmittedCut) : Except DepthPass (DepthPass × List AdmittedCut) :=
  stageJoins ctx.view depth admitted pass.registers pass

/-! ### Mutual condemnation -/

/-- One cut would condemn the other's op. -/
def condemns (view : HeaderView) (x y : AdmittedCut) : Bool :=
  x.registers.any fun kc => kc.1.scopes y.op.header &&
    (beyond y.op.header.seq kc.2 || ancestry y.op.hash kc.2 view = .offBranch)

/-- Who is on the stack (`1`) or done (`2`), and the stack with each node's next edge. -/
structure Search where
  colour : Nat → Nat
  stack : List (Nat × Nat)

/-- One turn of the depth-first search: follow the next edge of the top, or leave it. -/
def searchTurn (adj : Nat → List Nat) (s : Search) : Search ⊕ (Bool × (Nat → Nat)) :=
  match s.stack with
  | [] => .inr (false, s.colour)
  | (node, edge) :: rest =>
    match (adj node)[edge]? with
    | some next =>
      if s.colour next = 1 then .inr (true, s.colour)
      else if s.colour next = 0 then
        .inl ⟨update s.colour next 1, (next, 0) :: (node, edge + 1) :: rest⟩
      else .inl ⟨s.colour, (node, edge + 1) :: rest⟩
    | none => .inl ⟨update s.colour node 2, rest⟩

/-- The searches from every node not yet seen. -/
def searchAll (adj : Nat → List Nat) (bound : Nat) : List Nat → (Nat → Nat) → Bool
  | [], _ => false
  | start :: rest, colour =>
    if colour start ≠ 0 then searchAll adj bound rest colour
    else
      match Lib.Loop.loop (searchTurn adj) bound ⟨update colour start 1, [(start, 0)]⟩ with
      | some (true, _) => true
      | some (false, colour') => searchAll adj bound rest colour'
      | none => false

/-- The cuts that the `i`-th condemns. -/
def condemnEdges (admitted : List AdmittedCut) (view : HeaderView) (i : Nat) : List Nat :=
  (List.range admitted.length).filter fun j =>
    i ≠ j ∧ (admitted[i]?.any fun x => admitted[j]?.any fun y => condemns view x y)

/-- The admitted cuts condemn each other in a circle. -/
def hasCondemnCycle (admitted : List AdmittedCut) (view : HeaderView) : Bool :=
  let n := admitted.length
  searchAll (condemnEdges admitted view) (n * (n + 2) + 1) (List.range n) fun _ => 0

/-- The nodes a search has not seen. -/
def unseen (n : Nat) (colour : Nat → Nat) : Nat := ((List.range n).filter fun i => colour i = 0).length

/-- What is left of a search: the nodes not yet seen, and the edges of those on the stack. -/
def Search.left (adj : Nat → List Nat) (n : Nat) (s : Search) : Nat :=
  (n + 2) * unseen n s.colour + (s.stack.map fun x => (adj x.1).length - x.2 + 1).sum

theorem unseen_update_le {n v : Nat} (colour : Nat → Nat) (i : Nat) (hv : v ≠ 0) :
    unseen n (update colour i v) ≤ unseen n colour := by
  refine (List.monotone_filter_right _ fun j hj => ?_).length_le
  rcases eq_or_ne j i with rfl | hne
  · simp [hv] at hj
  · simpa [update_of_ne hne] using hj

section

variable {adj : Nat → List Nat} {n : Nat} (hadj : ∀ i, ∀ j ∈ adj i, j < n) (hdeg : ∀ i, (adj i).length ≤ n)

include hadj hdeg

theorem searchTurn_left {s s' : Search} (h : searchTurn adj s = .inl s') : s'.left adj n < s.left adj n := by
  obtain ⟨colour, stack⟩ := s
  cases stack with
  | nil => cases h
  | cons x rest =>
    obtain ⟨node, edge⟩ := x
    unfold searchTurn at h
    cases hnext : (adj node)[edge]? with
    | none =>
      simp only [hnext] at h
      cases h
      have hle := Nat.mul_le_mul_left (n + 2) (@unseen_update_le n 2 colour node two_ne_zero)
      simp only [Search.left, List.map_cons, List.sum_cons]
      omega
    | some next =>
      obtain ⟨hedge, hmem⟩ := List.getElem?_eq_some_iff.mp hnext
      have hlt := hadj node next (hmem ▸ List.getElem_mem hedge)
      simp only [hnext] at h
      split_ifs at h with hon hnew <;> cases h
      · -- a new node: its edges are fewer than it counted for
        have hunseen : unseen n (update colour next 1) < unseen n colour := by
          refine Lib.Loop.length_filter_lt (fun j hj => ?_) (List.mem_range.mpr hlt) (decide_eq_true hnew) (by simp)
          rcases eq_or_ne j next with rfl | hne
          · simp at hj
          · simpa [update_of_ne hne] using hj
        have hmul := Nat.mul_le_mul_left (n + 2) (Nat.succ_le_of_lt hunseen)
        have := hdeg next
        simp only [Search.left, List.map_cons, List.sum_cons, Nat.mul_succ] at hmul ⊢
        omega
      · simp only [Search.left, List.map_cons, List.sum_cons]
        omega

theorem search_isSome {start : Nat} (hstart : start < n) (colour : Nat → Nat) :
    (Lib.Loop.loop (searchTurn adj) (n * (n + 2) + 1) ⟨update colour start 1, [(start, 0)]⟩).isSome := by
  refine Lib.Loop.loop_isSome (fun _ => True) (Search.left adj n)
    (fun s s' _ hgo => ⟨trivial, searchTurn_left hadj hdeg hgo⟩) trivial ?_
  have hunseen : unseen n (update colour start 1) < (List.range n).length :=
    List.length_filter_lt_length_iff_exists.mpr ⟨start, List.mem_range.mpr hstart, by simp⟩
  rw [List.length_range] at hunseen
  have hmul := Nat.mul_le_mul_left (n + 2) (Nat.succ_le_of_lt hunseen)
  have := hdeg start
  simp only [Search.left, List.map_cons, List.map_nil, List.sum_cons, List.sum_nil, Nat.mul_comm n]
  rw [Nat.mul_succ] at hmul
  omega

end

theorem condemnEdges_bounded (admitted : List AdmittedCut) (view : HeaderView) (i : Nat) :
    (∀ j ∈ condemnEdges admitted view i, j < admitted.length) ∧
      (condemnEdges admitted view i).length ≤ admitted.length :=
  ⟨fun _ hj => List.mem_range.mp (List.mem_of_mem_filter hj),
    (List.length_filter_le _ _).trans_eq List.length_range⟩

/-! ### Reserving an owner -/

/-- The cuts in order, over the owners of the depths before: one that would close the last is
    rejected. -/
def reserveOwner : List AdmittedCut → Owners → DepthPass → DepthPass × List AdmittedCut
  | [], _, pass => (pass, [])
  | a :: rest, surviving, pass =>
    match closesOpenIncarnation a.op.op surviving with
    | some d =>
      if surviving.keys.length = 1 then
        reserveOwner rest surviving (pass.setCutVerdict a.hash (.rejected .lastOwner))
      else
        let (pass', kept) := reserveOwner rest (surviving.erase d) pass
        (pass', a :: kept)
    | none =>
      let (pass', kept) := reserveOwner rest surviving pass
      (pass', a :: kept)

/-- The reserve, from the owners of the depths before. -/
def reserveSurvivingOwner (pass : DepthPass) (admitted : List AdmittedCut) :
    DepthPass × List AdmittedCut :=
  reserveOwner admitted pass.state.owners pass

/-! ### Committing the registers -/

/-- An extend by a live author, with the register it raises. -/
structure CutExtension where
  op : Candidate
  key : RegisterKey
  cut : Cut

def CutExtension.hash (e : CutExtension) : EntryHash := e.op.hash

/-- What becomes of an extend. -/
inductive ExtendAdmission where
  | skip
  | verdict (outcome : Outcome)
  | extend (key : RegisterKey) (cut : Cut)

/-- An extend may only raise a register that a cut created. -/
def extendAdmission (ctx : FoldContext) (pass : DepthPass) (depthRegisters : Registers)
    (c : Candidate) : ExtendAdmission :=
  if pass.stopped c then .skip
  else
    match cutExtendRegister c with
    | none => .skip
    | some (key, cut, coordinate) =>
      if authorityStatus c ctx.incarnations pass.state pass.verdicts.parked ≠ .live then .skip
      else if validateCutTarget cut coordinate ctx.view = .mismatch then
        .verdict (.rejected .cutTargetMismatch)
      else if (depthRegisters key).isNone then .verdict (.parked .unknownCutTarget)
      else .extend key cut

/-- The verdict, if it is one. -/
def ExtendAdmission.outcome : ExtendAdmission → Option Outcome
  | .verdict o => some o
  | _ => none

/-- The extension, if there is one. -/
def ExtendAdmission.extension (c : Candidate) : ExtendAdmission → Option CutExtension
  | .extend key cut => some ⟨c, key, cut⟩
  | _ => none

/-- The extends by hash, joined into the staged registers; an incomparable one contests the depth.
    -/
def commitExtends (view : HeaderView) (depth : Nat) :
    List CutExtension → Registers → DepthPass → Except DepthPass DepthPass
  | [], staged, pass => .ok { pass with registers := staged }
  | e :: rest, staged, pass =>
    match joinRegisterPeek staged e.key e.cut view with
    | .applied =>
      commitExtends view depth rest (joinRegister staged e.key e.cut view)
        { pass with registerContributors := insert e.hash pass.registerContributors }
    | .contested => .error (pass.contest depth)
    | .parked =>
      commitExtends view depth rest staged (pass.setCutVerdict e.hash (.parked .unknownCutTarget))

/-- The admitted cuts joined into a copy of the registers. -/
def stagedRegisters (view : HeaderView) (registers : Registers) (admitted : List AdmittedCut) :
    Registers :=
  admitted.foldl (fun r a => joinAll r a.registers view) registers

/-- Commit the joins, then this depth's extends. -/
def commitRegisters (ctx : FoldContext) (depth : Nat) (pass : DepthPass) (members : List Candidate)
    (admitted : List AdmittedCut) : Except DepthPass DepthPass :=
  let staged := stagedRegisters ctx.view pass.registers admitted
  let creators : DepthPass := { pass with
    registerContributors := pass.registerContributors ∪ (admitted.map AdmittedCut.hash).toFinset }
  let judged := creators.setCutVerdicts members fun c => (extendAdmission ctx pass staged c).outcome
  let extensions := sorted CutExtension.hash
    (members.filterMap fun c => (extendAdmission ctx pass staged c).extension c)
  commitExtends ctx.view depth extensions staged judged

/-! ### Condemnation -/

/-- A condemned mint leaves the live incarnations, and the owners and roster it put its subject in.
    -/
def dropMint (state : FoldState) (c : Candidate) : FoldState :=
  let d := c.subjectDevice
  let enrolls : Bool := match c.op with
    | .deviceAdd _ _ => state.roster d = some c.hash
    | _ => false
  { state with
    live := state.live.erase c.hash
    owners := if state.owners.lookup d = some c.hash then state.owners.erase d else state.owners
    roster := if enrolls then update state.roster d none else state.roster
    enrollmentRoles :=
      if enrolls then update state.enrollmentRoles d none else state.enrollmentRoles }

/-- The verdict of the registers on a candidate not condemned yet; the genesis is exempt. -/
def rederived (ctx : FoldContext) (pass : DepthPass) (c : Candidate) : RegisterVerdict :=
  if c.hash = ctx.incarnations.genesisOwnerId ∨ (pass.verdicts.condemned c.hash).isSome then .clear
  else registerVerdict c pass.registers ctx.view

/-- The reason of a condemnation. -/
def RegisterVerdict.condemnation : RegisterVerdict → Option CondemnedReason
  | .condemned r => some r
  | _ => none

/-- The reason of a parking. -/
def RegisterVerdict.parking : RegisterVerdict → Option ParkReason
  | .parked r => some r
  | _ => none

/-- Condemnations only grow; parkings are derived anew. -/
def rederiveCondemnation (ctx : FoldContext) (pass : DepthPass) : DepthPass :=
  { pass with
    verdicts :=
      { pass.verdicts with
        condemned := insertAll Candidate.hash (fun c => (rederived ctx pass c).condemnation)
          ctx.candidates pass.verdicts.condemned
        parked := insertAll Candidate.hash (fun c => (rederived ctx pass c).parking)
          ctx.candidates fun _ => none }
    state := (ctx.candidates.filter fun c =>
        c.isMint ∧ (rederived ctx pass c).condemnation.isSome).foldl dropMint pass.state }

/-! ### The whole depth -/

/-- The register pass: from the admission of the cuts to the committed registers. -/
def registerPass (ctx : FoldContext) (depth : Nat) (members : List Candidate) (pass : DepthPass) :
    Except DepthPass DepthPass :=
  let (pass, admitted) := admitCutRegisters ctx pass members
  let (pass, admitted) := rejectSoleOwnerCuts pass admitted
  match stageRegisterJoins ctx depth pass admitted with
  | .error pass => .error pass
  | .ok (pass, admitted) =>
    if hasCondemnCycle admitted ctx.view then .error (pass.contest depth)
    else
      let (pass, admitted) := reserveSurvivingOwner pass admitted
      commitRegisters ctx depth pass members admitted

/-- The registers, the condemnations under them, the effects. -/
def foldDepth (ctx : FoldContext) (depth : Nat) (members : List Candidate)
    (s : DepthPass × Outcomes) : Except (DepthPass × Outcomes) (DepthPass × Outcomes) :=
  match registerPass ctx depth members s.1 with
  | .error pass => .error (pass, s.2)
  | .ok pass =>
    let pass := rederiveCondemnation ctx pass
    let (state, outcomes) := effectPass ctx.incarnations pass.verdicts members (pass.state, s.2)
    .ok ({ pass with state }, outcomes)

/-- The depths in ascending order, until one is contested. -/
def foldDepths (ctx : FoldContext) :
    List (Nat × List Candidate) → DepthPass × Outcomes → DepthPass × Outcomes
  | [], s => s
  | (depth, members) :: rest, s =>
    match foldDepth ctx depth members s with
    | .error s' => s'
    | .ok s' => foldDepths ctx rest s'

end RagRat.Account
