import Mathlib.Data.List.MinMax
import Mathlib.Data.List.Sort
import Mathlib.Logic.Function.Basic
import Mathlib.Logic.Relation
import Lace.CCPG.AliasChecker

/-!
# The lockset analysis

`LSAnalysis::build`. Each function is walked from its entry with a worklist. A node that is
taken off the list executes its lock operations on its lockset and hands the result to its
`ORDER` successors: a successor that was not processed yet is queued and its lockset is
overwritten, a processed one has the locks merged into its lockset and is not queued again.

A `Lock` object is named by the number of objects created before it. The addresses of nodes and
locks, which order the worklist and the merged locksets, are a parameter.

## Main definitions

* `LockProgram`: the graph, its functions and the alias relation;
* `LockProgram.ops`: the lock operations of a node;
* `LockProgram.processNode`, `LockProgram.loop`, `LockProgram.build`: the analysis.
-/

namespace Lace

/-- `Lock`: the nodes recorded for one lock object. Every lock is created with its acquire node. -/
structure Lock where
  /-- `getId`. -/
  id : ℕ
  /-- `getAcquire`. -/
  acquire : NodeId
  /-- `getRelease`. -/
  release : Option NodeId
  deriving DecidableEq, Repr

/-- A lock operation, with the acquire or release node it works through. -/
inductive LockOp
  | acquire (n : NodeId)
  | release (n : NodeId)
  deriving DecidableEq, Repr

/-- `ccpg::Function`: its function node and its nodes. -/
structure CCPGFunction where
  /-- `getFuncNode`. -/
  funcNode : NodeId
  /-- `getNodes`. -/
  nodes : List NodeId
  /-- The nodes are a set. -/
  nodup : nodes.Nodup
  deriving DecidableEq

/-- Where the heap puts the objects that the analysis sorts by address. -/
structure HeapLayout where
  /-- The address of a `CCPGNode`. -/
  nodeAddr : NodeId → ℕ
  /-- The address of a `Lock`. -/
  lockAddr : ℕ → ℕ

/-- What `LSAnalysis::build` works on. -/
structure LockProgram where
  /-- `getCCPG`. -/
  ccpg : CCPG
  /-- The module behind the lock operations. -/
  ir : IRModule
  /-- `CCPG::getFunctions`, in iteration order. -/
  functions : List CCPGFunction
  /-- `CALL` edges are created for object initialisations and other calls only. -/
  call_src : ∀ e ∈ ccpg.edges, e.type = .call →
    ccpg.type e.src = .objectInit ∨ ccpg.type e.src = .otherCall
  /-- A node belongs to one function, and `ORDER` edges stay inside a function. -/
  disjoint : functions.Pairwise fun f g => ∀ n,
    Relation.ReflTransGen ccpg.OrderStep f.funcNode n →
      ¬Relation.ReflTransGen ccpg.OrderStep g.funcNode n

/-- The state while one function is analysed. -/
structure WorkState where
  /-- The lock objects created so far; a lock is named by its position. -/
  locks : List Lock
  /-- `nodeLockSets`. -/
  nodeLockSets : NodeId → List ℕ
  /-- The processed nodes of the function, the last one first. -/
  visited : List NodeId
  /-- The worklist. -/
  worklist : List NodeId

namespace LockProgram

variable (P : LockProgram) (A : HeapLayout)

/-- `Function::getNodesByType`. -/
def nodesByType (f : CCPGFunction) (t : ThreadAPIType) : List NodeId :=
  f.nodes.filter fun n => P.ccpg.type n = t

/-- What a call of `f` does to the lockset: `isAcquirePotential` and `isReleasePotential`, which
`labelAPI` sets for a function with exactly one lock operation. -/
def potentialOp (f : CCPGFunction) : Option LockOp :=
  match P.nodesByType f .acquire, P.nodesByType f .release with
  | [a], [] => some (.acquire a)
  | [], [r] => some (.release r)
  | _, _ => none

/-- `getFunctionByCCPGNode`: the function whose function node this is. -/
def functionAt (n : NodeId) : Option CCPGFunction :=
  P.functions.find? fun f => f.funcNode = n

/-- The lock operation of the node itself. -/
def ownOp (n : NodeId) : Option LockOp :=
  match P.ccpg.type n with
  | .acquire => some (.acquire n)
  | .release => some (.release n)
  | _ => none

/-- The lock operation of the function that a call site calls. -/
def calleeOp (n : NodeId) : Option LockOp :=
  if P.ccpg.isCallSite n then ((P.ccpg.hasCallEdge n).bind P.functionAt).bind P.potentialOp
  else none

/-- The lock operations that the analysis executes at a node: its own and its callee's. -/
def ops (n : NodeId) : List LockOp := (P.ownOp n).toList ++ (P.calleeOp n).toList

/-- A release at `r` gives back this lock: it has no release yet and aliases `r`. -/
def releasable (locks : List Lock) (r : NodeId) (i : ℕ) : Bool :=
  match locks[i]? with
  | none => false
  | some l => l.release.isNone && P.ir.isLockAlias l.acquire r

/-- One lock operation on the lock objects and the current lockset. A release gives back the last
lock of the set that it can, and the lock records it. -/
def applyOp (s : List Lock × List ℕ) : LockOp → List Lock × List ℕ
  | .acquire a => (s.1 ++ [⟨s.1.length + 1, a, none⟩], s.2 ++ [s.1.length])
  | .release r =>
      match s.2.reverse.find? (P.releasable s.1 r) with
      | none => s
      | some i =>
          (s.1.modify i fun l => { l with release := some r }, (s.2.reverse.erase i).reverse)

/-- Append, sort by address and remove duplicates. -/
def mergeLocks (dst cur : List ℕ) : List ℕ :=
  (dst ++ cur).dedup.insertionSort fun i j => A.lockAddr i ≤ A.lockAddr j

/-- Hand the lockset of `n`, as it is now, to a successor. -/
def passTo (n : NodeId) (s : WorkState) (dst : NodeId) : WorkState :=
  if dst ∈ s.visited then
    { s with
      nodeLockSets := Function.update s.nodeLockSets dst
        (mergeLocks A (s.nodeLockSets dst) (s.nodeLockSets n)) }
  else
    { s with
      worklist := s.worklist.insert dst
      nodeLockSets := Function.update s.nodeLockSets dst (s.nodeLockSets n) }

/-- The lock operations of a node that was taken off the worklist. -/
def execNode (s : WorkState) (n : NodeId) : WorkState :=
  let r := (P.ops n).foldl P.applyOp (s.locks, s.nodeLockSets n)
  { locks := r.1
    nodeLockSets := Function.update s.nodeLockSets n r.2
    visited := n :: s.visited
    worklist := s.worklist.erase n }

/-- One turn of the worklist loop. -/
def processNode (s : WorkState) (n : NodeId) : WorkState :=
  (P.ccpg.orderSuccs n).foldl (passTo A n) (P.execNode s n)

/-- The worklist loop, which takes the node with the least address. -/
def loop : ℕ → WorkState → WorkState
  | 0, s => s
  | fuel + 1, s =>
      match s.worklist.argmin A.nodeAddr with
      | none => s
      | some n => loop fuel (P.processNode A s n)

/-- The state in which the analysis of a function begins. -/
def start (locks : List Lock) (sets : NodeId → List ℕ) (f : CCPGFunction) : WorkState where
  locks := locks
  nodeLockSets := Function.update sets f.funcNode []
  visited := []
  worklist := [f.funcNode]

/-- The analysis of one function. No node is processed twice, which bounds the loop. -/
def buildFunction (s : List Lock × (NodeId → List ℕ)) (f : CCPGFunction) :
    List Lock × (NodeId → List ℕ) :=
  let r := P.loop A (P.ccpg.edges.length + 2) (start s.1 s.2 f)
  (r.locks, r.nodeLockSets)

/-- `LSAnalysis::build`: all functions, with the lock objects and locksets of all of them. -/
def build : List Lock × (NodeId → List ℕ) :=
  P.functions.foldl (P.buildFunction A) ([], fun _ => [])

/-- The acquire nodes of a node's lockset. -/
def lockSetAt (r : List Lock × (NodeId → List ℕ)) (n : NodeId) : List NodeId :=
  (r.2 n).filterMap fun i => (r.1[i]?).map Lock.acquire

end LockProgram

end Lace
