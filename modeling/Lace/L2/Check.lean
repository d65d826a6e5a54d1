import Lace.L2.Evidence

/-!
# The requirement checker

`l2::checkRequirements`: every requirement of every thread of a session is tried against the
session's evidence. A requirement is discharged when all its operand pairs are; the first pair
that is not becomes a candidate.

## Main definitions

* `Session`, `L2Context`: what the checker works on;
* `L2Context.discharged`: the discharge condition of a pair, for the three forms;
* `L2Context.checkRequirement`, `L2Context.checkRequirements`: the checker.

## Main results

* `checkRequirement_eq_none_iff`: a requirement is discharged when all its pairs are;
* `discharged_mono`: more evidence discharges more.
-/

namespace Lace

/-- `accTypeOfNode`: the type of the first access at a node. -/
def accTypeOfNode (O : Option SharedObject) (node : NodeId) : Option AccessType :=
  O.bind fun o => (o.accesses.find? fun a => a.nodeId = node).map ThreadAccess.accessType

/-- The last access at a node. -/
def SharedObject.lastAccess (o : SharedObject) (node : NodeId) : Option ThreadAccess :=
  o.accesses.reverse.find? fun a => a.nodeId = node

/-- `sameLockCovers`: both accesses are locked, and by the same text. -/
def sameLockCovers (O : Option SharedObject) (a b : NodeId) : Bool :=
  match O with
  | none => false
  | some o =>
      match o.lastAccess a, o.lastAccess b with
      | some pa, some pb =>
          pa.isLockProtected && pb.isLockProtected && !pa.protectingLock.isEmpty &&
            decide (pa.protectingLock = pb.protectingLock)
      | _, _ => false

/-- One analysis session: its threads and its objects. -/
structure Session where
  /-- The threads. -/
  threads : TidSet
  /-- The objects. -/
  objects : List ObjectRef
  deriving DecidableEq

/-- What the checker reads besides the session. -/
structure L2Context where
  /-- `contractsByTid`. -/
  contracts : ContractMap
  /-- The object behind a pointer. -/
  object : ObjectRef → SharedObject
  /-- `objIndex`. -/
  objIndex : ObjectRef → Option ℤ
  /-- The graph of the nodes. -/
  ccpg : CCPG
  /-- The static happens-before graph. -/
  hb : HBGraph
  /-- The environment variables. -/
  env : LaceEnv

/-- `L2Candidate`. -/
structure L2Candidate where
  /-- The object id of the requirement. -/
  objectId : ℤ
  /-- The object, if the session has it. -/
  object : Option ObjectRef
  /-- The form of the requirement. -/
  form : ReqForm
  /-- Why the requirement is not discharged. -/
  reason : String
  /-- The thread of the requirement. -/
  reqTid : Tid
  /-- The first node of the pair. -/
  aNode : NodeId
  /-- The second node of the pair. -/
  bNode : NodeId
  /-- A free is on the failing side. -/
  lifetime : Bool
  deriving DecidableEq, Repr

namespace L2Context

variable (X : L2Context) (S : Session)

/-- The evidence of a session. -/
def evidence : OrderingEvidence := buildEvidence X.ccpg S.threads X.contracts X.hb X.env

/-- `objById`: the last object of the session with the index. -/
def objById (id : ℤ) : Option ObjectRef :=
  S.objects.reverse.find? fun O => X.objIndex O = some id

/-- The object of the session that a requirement is anchored to. -/
def anchor (r : NodeReq) : Option ObjectRef :=
  if 0 ≤ r.objectId then X.objById S r.objectId else none

/-- The accesses of that object. -/
def anchorObject (r : NodeReq) : Option SharedObject := (X.anchor S r).map X.object

/-- The accesses that conflict with an atomic region of thread `tid`: the writes and frees of the
other threads of the session. -/
def conflicts (tid : Tid) (r : NodeReq) : List NodeId :=
  match X.anchorObject S r with
  | none => []
  | some O =>
      (O.accesses.filter fun acc =>
        decide (acc.threadId ∈ S.threads.toList) && decide (acc.threadId ≠ tid) &&
          (decide (acc.accessType = .write) || decide (acc.accessType = .free)) &&
            decide (0 ≤ acc.nodeId)).map ThreadAccess.nodeId

/-- The pairs that a requirement is tried on, in order. An atomic region is tried on its first
step and every conflict. -/
def operandPairs (tid : Tid) (r : NodeReq) : List (NodeId × NodeId) :=
  match r.form with
  | .mustPrecede | .mustBeMediated => r.a.flatMap fun a => r.b.map fun b => (a, b)
  | .mustBeAtomic =>
      match r.a with
      | [] => []
      | first :: _ => (X.conflicts S tid r).map fun c => (first, c)

/-- Two nodes are coordinated: by a token, an atomic protocol or a surface lock. -/
def covers (r : NodeReq) (a b : NodeId) : Bool :=
  (X.evidence S).commonExclusion a b || (X.evidence S).atomicCompatible a b ||
    sameLockCovers (X.anchorObject S r) a b

/-- `mediated`: the two nodes are ordered one way or the other, or exclude each other. -/
def mediated (r : NodeReq) (a b : NodeId) : Bool :=
  (X.evidence S).ordReach a b || (X.evidence S).ordReach b a || X.covers S r a b

/-- `outside`: the conflict is ordered before the region or after it. -/
def outside (first last cnode : NodeId) : Bool :=
  (X.evidence S).ordReach cnode first || (X.evidence S).ordReach last cnode

/-- `excluded`: some step of the region is coordinated with the conflict. -/
def excluded (r : NodeReq) (cnode : NodeId) : Bool := r.a.any fun s => X.covers S r s cnode

/-- The discharge condition of a pair. -/
def discharged (r : NodeReq) (p : NodeId × NodeId) : Bool :=
  match r.form with
  | .mustPrecede => (X.evidence S).ordReach p.1 p.2
  | .mustBeMediated => X.mediated S r p.1 p.2
  | .mustBeAtomic => X.outside S p.1 (r.a.getLastD p.1) p.2 || X.excluded S r p.2

/-- The text of a candidate. -/
def reason (r : NodeReq) (p : NodeId × NodeId) : String :=
  (match r.form with
    | .mustPrecede => "MustPrecede undischarged: no must-order witness from node " ++
        toString p.1 ++ " to node " ++ toString p.2
    | .mustBeMediated => "MustBeMediated undischarged: conflicting nodes " ++ toString p.1 ++
        " and " ++ toString p.2 ++ " share no ordering, exclusion, or atomic protocol"
    | .mustBeAtomic => "MustBeAtomic undischarged: conflicting node " ++ toString p.2 ++
        " can interleave the atomic region") ++
  if r.note.isEmpty then "" else "  [" ++ r.note ++ "]"

/-- The candidate of a pair. -/
def candidate (tid : Tid) (r : NodeReq) (p : NodeId × NodeId) : L2Candidate where
  objectId := r.objectId
  object := X.anchor S r
  form := r.form
  reason := reason r p
  reqTid := tid
  aNode := p.1
  bNode := p.2
  lifetime := decide (accTypeOfNode (X.anchorObject S r) p.2 = some .free) ||
    decide (r.form = .mustBeMediated) &&
      decide (accTypeOfNode (X.anchorObject S r) p.1 = some .free)

/-- The check of one requirement: its first pair that is not discharged. -/
def checkRequirement (tid : Tid) (r : NodeReq) : Option L2Candidate :=
  ((X.operandPairs S tid r).find? fun p => !X.discharged S r p).map (X.candidate S tid r)

/-- `checkRequirements`: the requirements of the threads of a session that nothing discharges. -/
def checkRequirements : List L2Candidate :=
  S.threads.toList.flatMap fun tid =>
    (X.contracts.nodeReqs tid).filterMap (X.checkRequirement S tid)

variable {X S} {tid : Tid} {r : NodeReq}

/-- A requirement is discharged when all its pairs are. -/
theorem checkRequirement_eq_none_iff : X.checkRequirement S tid r = none ↔
    ∀ p ∈ X.operandPairs S tid r, X.discharged S r p = true := by
  simp [checkRequirement]

/-- A candidate of the checker belongs to a requirement of a thread of the session. -/
theorem mem_checkRequirements {c : L2Candidate} : c ∈ X.checkRequirements S ↔
    ∃ tid ∈ S.threads.toList, ∃ r ∈ X.contracts.nodeReqs tid,
      X.checkRequirement S tid r = some c := by
  simp [checkRequirements]

theorem mem_conflicts {n : NodeId} : n ∈ X.conflicts S tid r ↔ ∃ O, X.anchorObject S r = some O ∧
    ∃ acc ∈ O.accesses, acc.threadId ∈ S.threads.toList ∧ acc.threadId ≠ tid ∧
      (acc.accessType = .write ∨ acc.accessType = .free) ∧ 0 ≤ acc.nodeId ∧ acc.nodeId = n := by
  unfold conflicts
  cases X.anchorObject S r with
  | none => simp
  | some O => simp [and_assoc]

/-! ### Two contexts -/

section TwoContexts

variable {Y : L2Context} {T : Session}

/-- More evidence discharges more. -/
theorem discharged_mono (hle : (X.evidence S).Le (Y.evidence T))
    (hobject : Y.anchorObject T r = X.anchorObject S r) {p : NodeId × NodeId}
    (h : X.discharged S r p = true) : Y.discharged T r p = true := by
  have hcovers : ∀ {a b}, X.covers S r a b = true → Y.covers T r a b = true := by
    intro a b hab
    simp only [covers, Bool.or_eq_true, hobject] at hab ⊢
    exact hab.imp_left (Or.imp (fun h => hle.commonExclusion h) fun h => hle.atomicCompatible h)
  unfold discharged at h ⊢
  cases hform : r.form with
  | mustPrecede =>
      rw [hform] at h
      exact hle.ordReach h
  | mustBeMediated =>
      simp only [hform, mediated, Bool.or_eq_true] at h ⊢
      exact h.imp (Or.imp (fun h => hle.ordReach h) fun h => hle.ordReach h) hcovers
  | mustBeAtomic =>
      simp only [hform, outside, excluded, Bool.or_eq_true, List.any_eq_true] at h ⊢
      exact h.imp (Or.imp (fun h => hle.ordReach h) fun h => hle.ordReach h)
        fun ⟨s, hs, hcov⟩ => ⟨s, hs, hcovers hcov⟩

end TwoContexts

end L2Context

end Lace
