import Lace.ThreadTree.Basic

/-!
# The classification of nodes

`ThreadAPIUtil`: which nodes of the code property graph become nodes of the CCPG, and which type
they get there. Calls are classified by their names, through a table of known functions that
discovered wrappers are added to, and lock functions also by the ends of their names.

## Main definitions

* `CPGNode`: a node of the code property graph;
* `ThreadAPIUtil.isCCPGNode`: the nodes that are kept;
* `ThreadAPIUtil.getType`: the type of a kept node.

## Main results

* `getType_ne_return`: no node is classified as a return node, though such nodes are kept.
-/

namespace Lace

/-- A `Node` of the code property graph: the fields that the classification reads. -/
structure CPGNode where
  /-- `getType`: the label. -/
  type : String
  /-- `getName`. -/
  name : String
  /-- The property `CONTROL_STRUCTURE_TYPE`, empty where it is missing. -/
  controlStructureType : String
  /-- The number of `outCFGEdges`. -/
  outCFGEdges : ℕ
  deriving DecidableEq, Repr

/-- `endsWith`, for a name that is longer than the suffix. -/
def endsWith (name suffix : String) : Bool :=
  suffix.toList.isSuffixOf name.toList && suffix.length < name.length

/-- `isLockWrapperByName`: the endings by which a function counts as one that takes a lock. -/
def isLockWrapperByName (name : String) : Bool :=
  ["_lock", "_lock_irq", "_lock_irqsave", "_lock_bh", "_lock_nested", "_rlock", "_wlock"].any
    fun suffix => endsWith name suffix && !(name = "clock" || name = "flock")

/-- `isUnlockWrapperByName`: the endings by which a function counts as one that releases a lock. -/
def isUnlockWrapperByName (name : String) : Bool :=
  ["_unlock", "_unlock_irq", "_unlock_irqrestore", "_unlock_bh", "_runlock", "_wunlock"].any
    (endsWith name)

/-- `isTryLockWrapperByName`: the endings by which a function counts as one that tries to take a
lock. -/
def isTryLockWrapperByName (name : String) : Bool :=
  ["_trylock", "_trylock_irq", "_trylock_irqsave", "_trylock_bh"].any (endsWith name)

/-- `ThreadAPIUtil`: the table that tells what a called function does. -/
structure ThreadAPIUtil where
  /-- `threadAPIMap`: the table of known functions, with the wrappers that were added to it. -/
  threadAPIMap : String → Option ThreadAPIType

namespace ThreadAPIUtil

variable (U : ThreadAPIUtil) (node : CPGNode)

/-- The test shared by most predicates: a call of a function with this type in the table. -/
def isAPI (t : ThreadAPIType) : Bool :=
  node.type = "Call" && U.threadAPIMap node.name = some t

/-- The test of the lock operations: a function that is not in the table is classified by its
name. -/
def isAPIOrWrapper (t : ThreadAPIType) (isWrapperByName : String → Bool) : Bool :=
  node.type = "Call" &&
    match U.threadAPIMap node.name with
    | some t' => t' = t
    | none => isWrapperByName node.name

/-- `isFork`: the node creates a thread. -/
def isFork : Bool := U.isAPI node .fork

/-- `isJoin`: the node waits for a thread. -/
def isJoin : Bool := U.isAPI node .join

/-- `isDetach`: the node detaches a thread; the table is not asked. -/
def isDetach : Bool := node.type = "Call" && node.name = "pthread_detach"

/-- `isAcquire`: the node takes a lock, by the table or by the ending of the name. -/
def isAcquire : Bool := U.isAPIOrWrapper node .acquire isLockWrapperByName

/-- `isTryAcquire`: the node tries to take a lock. -/
def isTryAcquire : Bool := U.isAPIOrWrapper node .tryAcquire isTryLockWrapperByName

/-- `isRelease`: the node releases a lock. -/
def isRelease : Bool := U.isAPIOrWrapper node .release isUnlockWrapperByName

/-- `isExit`: the node ends its thread. -/
def isExit : Bool := U.isAPI node .exit

/-- `isCancel`: the node cancels a thread. -/
def isCancel : Bool := U.isAPI node .cancel

/-- `isCondWait`: the node waits for a condition. -/
def isCondWait : Bool := U.isAPI node .condWait

/-- `isCondSignal`: the node wakes one waiting thread. -/
def isCondSignal : Bool := U.isAPI node .condSignal

/-- `isCondBroadcast`: the node wakes all waiting threads. -/
def isCondBroadcast : Bool := U.isAPI node .condBroadcast

/-- `isCondvarIni`: the node sets a condition variable up. -/
def isCondvarIni : Bool := U.isAPI node .condvarIni

/-- `isCondvarDestroy`: the node destroys a condition variable. -/
def isCondvarDestroy : Bool := U.isAPI node .condvarDestroy

/-- `isMutexIni`: the node sets a mutex up. -/
def isMutexIni : Bool := U.isAPI node .mutexIni

/-- `isMutexDestroy`: the node destroys a mutex. -/
def isMutexDestroy : Bool := U.isAPI node .mutexDestroy

/-- `isBarInit`: the node sets a barrier up. -/
def isBarInit : Bool := U.isAPI node .barInit

/-- `isBarWait`: the node waits at a barrier. -/
def isBarWait : Bool := U.isAPI node .barWait

/-- `isHareParFor`: the node runs a parallel loop. -/
def isHareParFor : Bool := U.isAPI node .hareParFor

/-- `isAssignment`: the node stores to a variable, also by an increment. -/
def isAssignment : Bool :=
  node.type = "Call" &&
    ((findStr node.name "<operator>.assignment").isSome ||
      (findStr node.name "<operator>.post").isSome || (findStr node.name "<operator>.pre").isSome)

/-- `isDelete`: the node deletes an object. -/
def isDelete : Bool := node.type = "Call" && node.name = "<operator>.delete"

/-- `isOtherCall`: the node calls a function that the table does not know. -/
def isOtherCall : Bool :=
  node.type = "Call" && (U.threadAPIMap node.name).isNone &&
    (node.name = "<operator>.pointerCall" ||
      (findStr node.name "<operator>").isNone && (findStr node.name ":").isNone)

/-- `isBranch`, of a node with any label. -/
def isBranch : Bool := 1 < node.outCFGEdges

/-- `isObjectInit`: the node makes an object, so that its constructor runs. -/
def isObjectInit : Bool := node.type = "Call" && node.name = "<operator>.new"

/-- `isGoto`: the node is a `goto`. -/
def isGoto : Bool := node.type = "Control_structure" && node.controlStructureType = "GOTO"

/-- `isGotoTarget`: the node is the label of a `goto`. -/
def isGotoTarget : Bool := node.type = "Jump_target"

/-- `isControlStructure`: the node is a branch or a loop. -/
def isControlStructure : Bool := node.type = "Control_structure"

/-- `isReturn`: the node returns from its function. -/
def isReturn : Bool := node.type = "Return"

/-- `isCCPGNode`: which nodes of a function are kept in the concurrent graph. -/
def isCCPGNode : Bool :=
  U.isFork node || U.isJoin node || U.isAcquire node || U.isTryAcquire node || U.isRelease node ||
    U.isExit node || U.isCancel node || U.isCondWait node || U.isCondSignal node ||
    U.isCondBroadcast node || U.isCondvarIni node || U.isCondvarDestroy node ||
    U.isMutexIni node || U.isMutexDestroy node || U.isBarInit node || U.isBarWait node ||
    isAssignment node || U.isOtherCall node || isBranch node || U.isHareParFor node ||
    isDetach node || isObjectInit node || isGoto node || isGotoTarget node ||
    isControlStructure node || isReturn node || isDelete node

/-- The cases of `getType`, in their order. -/
def typeCases : List (Bool × ThreadAPIType) :=
  [(U.isAcquire node, .acquire), (isAssignment node, .assignment), (U.isBarInit node, .barInit),
    (U.isBarWait node, .barWait), (U.isCancel node, .cancel),
    (U.isCondBroadcast node, .condBroadcast), (U.isCondSignal node, .condSignal),
    (U.isCondvarDestroy node, .condvarDestroy), (U.isCondvarIni node, .condvarIni),
    (U.isCondWait node, .condWait), (U.isExit node, .exit), (U.isFork node, .fork),
    (U.isJoin node, .join), (isDetach node, .detach), (U.isMutexDestroy node, .mutexDestroy),
    (U.isMutexIni node, .mutexIni), (U.isRelease node, .release),
    (U.isTryAcquire node, .tryAcquire), (U.isHareParFor node, .hareParFor),
    (isObjectInit node, .objectInit), (isGoto node, .goto), (isGotoTarget node, .gotoTarget),
    (isControlStructure node, .controlStructure), (U.isOtherCall node, .otherCall),
    (isBranch node, .branch)]

/-- `getType`: the first case that applies. -/
def getType : ThreadAPIType :=
  (((U.typeCases node).find? fun c => c.1).map Prod.snd).getD .dummy

variable {U node}

/-- Whatever the table says, no node gets the type of a return node. -/
theorem getType_ne_return (U : ThreadAPIUtil) (node : CPGNode) : U.getType node ≠ .return := by
  have hcases : ∀ c ∈ U.typeCases node, c.2 ≠ .return := by
    simp [typeCases]
  unfold getType
  cases hfind : (U.typeCases node).find? fun c => c.1 with
  | none => exact nofun
  | some c => exact hcases c (List.mem_of_find?_eq_some hfind)

end ThreadAPIUtil

end Lace
