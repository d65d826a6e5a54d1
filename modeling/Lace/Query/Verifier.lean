import Lace.CCPG.Contexts
import Lace.HBGraph.Basic
import Lace.Query.Hypothesis
import Lace.Surface.Basic
import Lace.CCPG.AliasChecker
import Lace.ThreadTree.Basic

/-!
# The hypothesis verifier

`HypothesisVerifier`: a hypothesis is confirmed when each of its constraints is, and every
predicate of a constraint has its own evaluator over the graph, the happens-before graph, the
locksets and the surface. The predicates on memory accesses (`alias`, `same_location`, `op_kind`,
`conflicts`, `unsafe_atomic_block`) are a parameter.

## Main definitions

* `HypothesisVerifier`: what the evaluators read;
* `Predicate`, `VerificationConstraint.predicateOf`: a constraint with its arguments resolved;
* `HypothesisVerifier.eval`, `HypothesisVerifier.verify`: the evaluators and the verdict.
-/

namespace Lace

open Library

/-- What `HypothesisVerifier` reads. -/
structure HypothesisVerifier where
  /-- `tct_`, with its graph `ccpg_`. -/
  tct : ThreadCreationTree
  /-- What the parallelism test reads from outside the tree. -/
  filters : EntryFilters
  /-- `hb_`, null in legacy mode. -/
  hb : Option HBGraph
  /-- `surface_`, if it was set. -/
  surface : Option (List SharedObject)
  /-- The module behind the nodes. -/
  ir : IRModule
  /-- The addresses of the `Lock` objects. -/
  lockAddr : ℕ → ℕ
  /-- `Lock::getAcquire`. -/
  lockAcquire : ℕ → NodeId
  /-- The locks that `LSAnalysis` found held at a node. -/
  nodeLockSets : NodeId → List ℕ
  /-- The contexts of the node's function; none where it has no function. -/
  contextSet : NodeId → List Context
  /-- The environment variables. -/
  env : LaceEnv
  /-- `hbRequireSyncEnabled`: `LACE_HB_REQUIRE_SYNC` is not `0`. -/
  hbRequireSyncEnabled : Bool
  /-- The predicates on memory accesses. -/
  evalMemory : Hypothesis → VerificationConstraint → Bool

/-- The predicates of a constraint, with their arguments resolved. -/
inductive Predicate
  | inThread (node : NodeId) (thread : ℤ)
  | mayRunConcurrently (thread1 thread2 : ℤ)
  | reachable (fromId toId : NodeId)
  | notLockProtected (node : NodeId)
  | sameLock (n1 n2 : NodeId)
  | hb (n1 n2 : NodeId) (expected : Bool)
  | concurrent (n1 n2 : NodeId)
  /-- A predicate on memory accesses. -/
  | memory
  /-- An unknown predicate. -/
  | unknown
  deriving DecidableEq, Repr

/-- The dispatch of `verify` on the predicate's name, up to the resolution of the arguments; `none`
where reading them throws. -/
def Hypothesis.predicateOf (h : Hypothesis) (c : VerificationConstraint) : Option Predicate :=
  let node (v : JsonValue) : NodeId := h.resolveNodeRef v
  if c.predicate = "in_thread" then
    (c.intArg "thread" (-1)).map fun t => .inThread (node (c.arg "node")) t
  else if c.predicate = "may_run_concurrently" then
    (c.intArg "thread1" (-1)).bind fun t1 =>
      (c.intArg "thread2" (-1)).map fun t2 => .mayRunConcurrently t1 t2
  else if c.predicate = "reachable" then
    some (.reachable (node (c.arg "from")) (node (c.arg "to")))
  else if c.predicate = "not_lock_protected" then
    some (.notLockProtected (node (c.arg "node")))
  else if c.predicate = "same_lock" then
    some (.sameLock (node (c.arg "node1")) (node (c.arg "node2")))
  else if c.predicate = "hb" then
    (c.boolArg "expected" true).map fun expected =>
      .hb (node (c.argOr "a" "from")) (node (c.argOr "b" "to")) expected
  else if c.predicate = "concurrent" then
    some (.concurrent (node (c.argOr "a" "node1")) (node (c.argOr "b" "node2")))
  else if c.predicate ∈
      ["alias", "same_location", "op_kind", "conflicts", "unsafe_atomic_block"] then
    some .memory
  else some .unknown

namespace HypothesisVerifier

variable (V : HypothesisVerifier)

/-- `ccpg_`: the graph that the predicates are evaluated over. -/
def ccpg : CCPG := V.tct.ccpg

/-- `ThreadCreationTree::getThreadById`: the thread with an id, if there is one. -/
def getThreadById (id : ℤ) : Option ThreadId :=
  V.tct.threads.find? fun t => (t : ℤ) = id

/-- `eval_in_thread`: the predicate on a node that a thread runs. -/
def evalInThread (nodeId : NodeId) (threadId : ℤ) : Bool :=
  if nodeId < 0 ∨ threadId < 0 then false
  else
    match V.ccpg.getNodeByID nodeId, V.getThreadById threadId with
    | some node, some thread => node ∈ (V.tct.thread thread).nodes
    | _, _ => false

/-- `eval_may_run_concurrently`: the predicate on two threads that may run at the same time. -/
def evalMayRunConcurrently (t1 t2 : ℤ) : Bool :=
  match V.getThreadById t1, V.getThreadById t2 with
  | some thread1, some thread2 => V.tct.mayThreadsRunConcurrently V.filters thread1 thread2
  | _, _ => false

/-- `kMaxDepth` of `eval_reachable`. -/
def kMaxDepth : ℕ := 8

/-- The search of `eval_reachable`: along calls, and along control flow inside the thread; the
target itself is seen over any of these edges. -/
def reachProblem (thread : ThreadId) (target : NodeId) : SearchProblem NodeId where
  next n := ((V.ccpg.getOutEdges n).filter fun e =>
      e.type = .call ||
        e.type = .order && (e.dst = target || e.dst ∈ (V.tct.thread thread).nodes)).map CCPGEdge.dst
  goal n := n = target
  keep _ := true
  cap := some kMaxDepth

/-- `eval_reachable`: the predicate on a node that may come after another in its thread. -/
def evalReachable (fromId toId : NodeId) : Bool :=
  match V.ccpg.getNodeByID fromId, V.ccpg.getNodeByID toId with
  | some source, some target =>
      match V.tct.threads.find? fun t => source ∈ (V.tct.thread t).nodes with
      | none => false
      | some thread =>
          if source = target then true
          else if target ∉ (V.tct.thread thread).nodes then false
          else (V.reachProblem thread target).searchFrom (V.ccpg.edges.length + 2) source
  | _, _ => false

/-- `LSAnalysis::getLockSet` of a node in a context. -/
def lockSetAt (node : NodeId) (ctx : Context) : List ℕ :=
  CallStructure.getLockSet V.lockAddr V.nodeLockSets node ctx

/-- `eval_not_lock_protected`: some context of the node holds no lock. -/
def evalNotLockProtected (nodeId : NodeId) : Bool :=
  match V.ccpg.getNodeByID nodeId with
  | none => false
  | some node =>
      if (V.contextSet node).isEmpty then (V.lockSetAt node []).isEmpty
      else (V.contextSet node).any fun ctx => (V.lockSetAt node ctx).isEmpty

/-- The locksets of a node in all its contexts. -/
def allLocksetsFor (node : NodeId) : List (List ℕ) :=
  CallStructure.allLocksetsFor V.lockAddr V.nodeLockSets node (V.contextSet node)

/-- The first context pair of `eval_same_lock` that shares a lock. -/
def shareLock (n1 n2 : NodeId) : Bool :=
  (V.allLocksetsFor n1).any fun ls1 => (V.allLocksetsFor n2).any fun ls2 =>
    ls1.any fun l1 => ls2.any fun l2 => V.ir.isLockAlias (V.lockAcquire l1) (V.lockAcquire l2)

/-- The protecting lock that the surface fallback of `eval_same_lock` takes for a node: that of
the first protected access. -/
def surfaceLock (objects : List SharedObject) (node : NodeId) : Option String :=
  ((objects.flatMap SharedObject.accesses).find? fun a =>
    a.nodeId = node && a.isLockProtected && !a.protectingLock.isEmpty).map
      ThreadAccess.protectingLock

/-- The surface fallback of `eval_same_lock`. -/
def surfaceSameLock (n1 n2 : NodeId) : Bool :=
  V.surface.any fun objects =>
    match surfaceLock objects n1, surfaceLock objects n2 with
    | some lock1, some lock2 => lock1 = lock2
    | _, _ => false

/-- `eval_same_lock`: the predicate on two nodes under one lock. -/
def evalSameLock (n1 n2 : NodeId) : Bool :=
  match V.ccpg.getNodeByID n1, V.ccpg.getNodeByID n2 with
  | some node1, some node2 => V.shareLock node1 node2 || V.surfaceSameLock n1 n2
  | _, _ => false

/-- The order between two nodes as `eval_hb` and `eval_concurrent` query it. -/
def ordered (n1 n2 : NodeId) (requireSync : Bool) : Bool :=
  match V.hb with
  | some hb => hb.hbReachable V.env n1 n2 16 requireSync .allMechanisms
  | none => V.evalReachable n1 n2

/-- `eval_hb`: an ordering assertion takes any path, the absence of an order is asserted about
paths with a synchronization edge. -/
def evalHb (n1 n2 : NodeId) (expected : Bool) : Bool :=
  match V.ccpg.getNodeByID n1, V.ccpg.getNodeByID n2 with
  | some a, some b => V.ordered a b (!expected && V.hbRequireSyncEnabled) = expected
  | _, _ => false

/-- `eval_concurrent`: the predicate on two nodes that nothing orders. -/
def evalConcurrent (n1 n2 : NodeId) : Bool :=
  match V.ccpg.getNodeByID n1, V.ccpg.getNodeByID n2 with
  | some a, some b =>
      if V.ordered a b V.hbRequireSyncEnabled || V.ordered b a V.hbRequireSyncEnabled then false
      else !V.evalSameLock n1 n2
  | _, _ => false

/-- The evaluator of a predicate. -/
def eval (h : Hypothesis) (c : VerificationConstraint) : Predicate → Bool
  | .inThread node thread => V.evalInThread node thread
  | .mayRunConcurrently t1 t2 => V.evalMayRunConcurrently t1 t2
  | .reachable fromId toId => V.evalReachable fromId toId
  | .notLockProtected node => V.evalNotLockProtected node
  | .sameLock n1 n2 => V.evalSameLock n1 n2
  | .hb n1 n2 expected => V.evalHb n1 n2 expected
  | .concurrent n1 n2 => V.evalConcurrent n1 n2
  | .memory => V.evalMemory h c
  | .unknown => false

/-- The evaluation of one constraint; `none` where reading its arguments throws. -/
def evalConstraint (h : Hypothesis) (c : VerificationConstraint) : Option Bool :=
  (h.predicateOf c).map (V.eval h c)

/-- `ConstraintEvalResult`: the fields that are read here. -/
structure ConstraintEvalResult where
  /-- `predicate`. -/
  predicate : String
  /-- `satisfied`. -/
  satisfied : Bool
  deriving DecidableEq, Repr

/-- `VerificationResult`. -/
structure VerificationResult where
  /-- `all_satisfied`. -/
  allSatisfied : Bool
  /-- `results`, in the order of the constraints. -/
  results : List ConstraintEvalResult
  deriving DecidableEq, Repr

/-- `HypothesisVerifier::verify`. -/
def verify (h : Hypothesis) : Option VerificationResult :=
  (h.constraints.mapM fun c => (V.evalConstraint h c).map fun b => ⟨c.predicate, b⟩).map
    fun results => { allSatisfied := results.all (·.satisfied), results := results }

/-- `h` is confirmed. -/
def Confirms (h : Hypothesis) : Prop :=
  ∃ r, V.verify h = some r ∧ r.allSatisfied = true

instance (h : Hypothesis) : Decidable (V.Confirms h) :=
  decidable_of_iff ((V.verify h).any (·.allSatisfied) = true) <| by
    cases hv : V.verify h <;> simp [Confirms, hv]

end HypothesisVerifier

end Lace
