import Lace.CCPG.Functions
import Lace.CCPG.NodeIds
import Lace.CCPG.NodeLoc
import Lace.Library.Flood
import Lace.ThreadTree.Basic

/-!
# The construction of the thread tree

`ThreadCreationTree::build` and `createThread`. The entry functions get their threads first. Then a
queue of fork nodes is worked off: a fork gets a thread unless its node or its location has one, its
start routine is not found, or the start routine has one; the forks of the new thread are queued. In
the end the entry threads without children go, except among kernel entries.

A thread is named by the number of threads allocated before it, also of those that `createThread`
gives up before it registers them. The graph is the one the construction leaves: `createThread` adds
the `CALL` edge of a site that has none, to the function that `findCalleeByCaller` finds.

## Main definitions

* `ForkGraph`: what `build` reads;
* `TreeState`: the threads;
* `ForkGraph.createThread`, `ForkGraph.build`.

## Main results

* `mem_functionsFrom`: the functions of a thread are those its main function reaches by calls.
-/

namespace Lace

open Library

/-! ### The threads -/

/-- `Thread`, with the fields that `build` sets. -/
structure ThreadObject extends Thread where
  /-- `getId`. -/
  id : ℕ
  /-- `getChildren`. -/
  children : List ThreadId
  /-- `getThreadMainFunction`. -/
  threadMainFunction : Option FuncId
  /-- `getFunctions`. -/
  functions : List FuncId
  /-- `isMainThread`, which marks the entry threads. -/
  isMainThread : Bool

/-- The state of a `ThreadCreationTree` during `build`. -/
structure TreeState where
  /-- The number of threads that were allocated; they have the names below it. -/
  allocated : ℕ
  /-- The thread with a name. -/
  thread : ThreadId → ThreadObject
  /-- `threads`, in the order in which they were added. -/
  threads : List ThreadId

/-- What `ThreadCreationTree::build` reads. -/
structure ForkGraph extends FunctionGraph where
  /-- `getEntryFunctions`, in iteration order. -/
  entries : List FuncId
  /-- `getNodeLoc`. -/
  nodeLoc : NodeId → NodeLoc
  /-- `getCPGNode`. -/
  cpgNode : NodeId → CPGNodePtr
  /-- `createCCPGNode`. -/
  createCCPGNode : CPGNodePtr → NodeId
  /-- `createFunction`. -/
  createFunction : NodeId → FuncId
  /-- `findThreadEntryInCPG` in a turn of the loop: the CPG node of the start routine. A model may
  be asked for it, which need not answer twice in the same way. -/
  findThreadEntryInCPG : ℕ → NodeId → Option CPGNodePtr
  /-- The name of a function, for `threadEntryName`. -/
  entryName : FuncId → String
  /-- The name of the function in the IR, where it has one. -/
  llvmName : FuncId → Option String
  /-- `manualentry::enabled`. -/
  manualEntries : Bool
  /-- A start routine gets one function node and one function, which lead back to it. -/
  cpgNode_startRoutine : ∀ round forkNode c, findThreadEntryInCPG round forkNode = some c →
    cpgNode (getFuncNode (createFunction (createCCPGNode c))) = c

/-- `isReentrantEntryName`. -/
def isReentrantEntryName (name : String) : Bool :=
  let contains := fun s => (findStr name s).isSome
  let atEnd := fun s : String => s.toList.isSuffixOf name.toList
  (["__do_sys_", "__se_sys_", "__x64_sys_", "__arm64_sys_", "__ia32_sys_"].any contains ||
    ["_ioctl", "_compat_ioctl", "_unlocked_ioctl", "_read", "_write", "_pread", "_pwrite",
      "_readv", "_writev", "_poll", "_mmap", "_fsync", "_flush", "_release", "_open"].any atEnd) ||
  ["_show", "_store", "_start", "_next", "_stop", "_seq_show", "_seq_start", "_seq_next",
    "_seq_stop"].any atEnd ||
  ["_sendmsg", "_recvmsg", "_do_rcv", "_dorcv", "_rcv", "_output", "_input", "_xmit"].any atEnd ||
  (contains "queue_rq" ||
    ["_queue_rq", "_complete_rq", "_timeout", "_done", "_handler"].any atEnd) ||
  ["_iterate", "_iterate_shared", "_lookup", "_readdir"].any atEnd ||
  ["_softirq", "_timer_fn", "_tasklet", "_action", "_work", "_work_fn", "_irq"].any atEnd ||
  ["kvm_vcpu_", "kvm_arch_vcpu_", "vcpu_run"].any contains

namespace TreeState

variable (S : TreeState)

/-- The tree before `build`. -/
def empty : TreeState where
  allocated := 0
  thread _ := ⟨⟨none, 0, none, [], false, false, ""⟩, 0, [], none, [], false⟩
  threads := []

/-- `new Thread()`, with the fields the thread ends up with. -/
def allocate (thread : ThreadObject) : TreeState :=
  { S with allocated := S.allocated + 1, thread := Function.update S.thread S.allocated thread }

/-- Set fields of a thread. -/
def modify (t : ThreadId) (f : ThreadObject → ThreadObject) : TreeState :=
  { S with thread := Function.update S.thread t (f (S.thread t)) }

/-- `Thread::addChild`: a thread is noted as a child of its parent. -/
def addChild (p t : ThreadId) : TreeState :=
  S.modify p fun thread => { thread with children := thread.children ++ [t] }

/-- `addThread`: a thread comes to the end of the list. -/
def addThread (t : ThreadId) : TreeState := { S with threads := S.threads ++ [t] }

/-- `Thread::getParent`: the parent of a thread, as far as it is built. -/
def parent (t : ThreadId) : Option ThreadId := (S.thread t).parent

section Fields

variable {S} {o : ThreadObject} {f : ThreadObject → ThreadObject} {p t v : ThreadId}

@[simp]
theorem thread_allocate_self : (S.allocate o).thread S.allocated = o := by
  simp [allocate]

theorem thread_allocate_of_ne (h : t ≠ S.allocated) : (S.allocate o).thread t = S.thread t := by
  simp [allocate, h]

@[simp]
theorem thread_modify_self : (S.modify t f).thread t = f (S.thread t) := by
  simp [TreeState.modify]

theorem thread_modify_of_ne (h : t ≠ p) : (S.modify p f).thread t = S.thread t := by
  simp [TreeState.modify, h]

@[simp]
theorem thread_addThread : (S.addThread t).thread = S.thread := rfl

theorem thread_addChild_of_ne (h : t ≠ p) : (S.addChild p v).thread t = S.thread t :=
  thread_modify_of_ne h

/-- The child is among the children of its parent. -/
@[simp]
theorem mem_children_addChild : v ∈ ((S.addChild p v).thread p).children := by
  simp [addChild]

end Fields

/-- Whether there is a thread for this fork node. -/
def hasForkNode (forkNode : NodeId) : Bool :=
  S.threads.any fun t => (S.thread t).forkNode = forkNode

end TreeState

namespace ForkGraph

variable (G : ForkGraph) (S : TreeState)

/-! ### `createThread` -/

/-- The functions that a function calls at its `OBJECT_INIT` and `OTHER_CALL` nodes. -/
def callees (f : FuncId) : List FuncId :=
  (((G.getNodes f).filter fun n => G.type n = .objectInit) ++
    (G.getNodes f).filter fun n => G.type n = .otherCall).filterMap G.callee

/-- Every callee is a function of the program. -/
theorem callees_subset (f : FuncId) : ∀ g ∈ G.callees f, g ∈ G.functions := by
  intro g hg
  obtain ⟨n, -, hn⟩ := List.mem_filterMap.mp hg
  exact FunctionGraph.mem_functions_of_callee hn

/-- The queue of functions in `createThread`. -/
def functionsFrom (f : FuncId) : List FuncId :=
  visitAll G.functions G.callees G.callees_subset [f] []

/-- The nodes of the functions, each once. -/
def nodesOf (functions : List FuncId) : List NodeId := (functions.flatMap G.getNodes).dedup

/-- Whether a thread that was forked has a fork node at the location of this one: the two file names
and the two lines are equal. -/
def hasForkLoc (forkNode : NodeId) : Bool :=
  S.threads.any fun t => G.type (S.thread t).forkNode = .fork &&
    ((G.nodeLoc forkNode).fileName = (G.nodeLoc (S.thread t).forkNode).fileName &&
      (G.nodeLoc forkNode).lineNumber = (G.nodeLoc (S.thread t).forkNode).lineNumber)

/-- Whether a thread has this node of the CPG as the node of its main function. -/
def hasMainFunction (c : CPGNodePtr) : Bool :=
  S.threads.any fun t =>
    (S.thread t).threadMainFunction.any fun f => G.cpgNode (G.getFuncNode f) = c

/-- `new Thread()`, `setParent`, `setId` and `setForkNode`. -/
def newThread (forkNode : NodeId) (parent : Option ThreadId) : ThreadObject where
  parent := parent
  forkNode := forkNode
  joinNode := none
  nodes := []
  isKernelEntry := false
  isReentrant := false
  entryName := ""
  id := S.threads.length
  children := []
  threadMainFunction := none
  functions := []
  isMainThread := false

/-- The thread with its main function, and all functions and nodes. -/
def startThread (forkNode : NodeId) (parent : Option ThreadId) (f : FuncId) : ThreadObject :=
  { newThread S forkNode parent with
    threadMainFunction := some f
    entryName := G.entryName f
    functions := G.functionsFrom f
    nodes := G.nodesOf (G.functionsFrom f) }

/-- `createThread`: the thread for a fork node or an entry, unless there is one. -/
def createThread (round : ℕ) (forkNode : NodeId) :
    Option ThreadId → Option ThreadId × TreeState
  | none =>
      (some S.allocated,
        (S.allocate (G.startThread S forkNode none (G.createFunction forkNode))).addThread
          S.allocated)
  | some p =>
      if S.hasForkNode forkNode then (none, S)
      else if G.hasForkLoc S forkNode then (none, S)
      else
        match G.findThreadEntryInCPG round forkNode with
        | none => (none, S.allocate (newThread S forkNode (some p)))
        | some c =>
            if G.hasMainFunction S c then (none, S.allocate (newThread S forkNode (some p)))
            else
              let f := G.createFunction (G.createCCPGNode c)
              (some S.allocated,
                ((S.allocate (G.startThread S forkNode (some p) f)).addChild p
                  S.allocated).addThread S.allocated)

/-! ### `build` -/

/-- `isKernelModuleMode`: there is more than one entry, so that none is the main program. -/
def isKernelModuleMode : Bool := 1 < G.entries.length || G.manualEntries

/-- The nodes of a thread of type `FORK`, each with the thread. -/
def forksOf (t : ThreadId) : List (NodeId × ThreadId) :=
  ((S.thread t).nodes.filter fun n => G.type n = .fork).map (·, t)

/-- What `build` sets of the thread of an entry function. -/
def markEntry (entry : FuncId) (thread : ThreadObject) : ThreadObject :=
  { thread with
    isMainThread := true
    isKernelEntry := thread.isKernelEntry || G.isKernelModuleMode
    isReentrant := thread.isReentrant || G.manualEntries ||
      (G.llvmName entry).any isReentrantEntryName }

/-- The turn of the first loop for an entry function: the threads and the queue of forks. -/
def createEntry (s : TreeState × List (NodeId × ThreadId)) (entry : FuncId) :
    TreeState × List (NodeId × ThreadId) :=
  match G.createThread s.1 0 (G.getFuncNode entry) none with
  | (none, S) => (S, s.2)
  | (some t, S) => (S.modify t (G.markEntry entry), s.2 ++ G.forksOf S t)

/-- The loop over the queue of forks, for the turns that are left. -/
def loop : ℕ → TreeState → List (NodeId × ThreadId) → TreeState
  | 0, S, _ => S
  | _ + 1, S, [] => S
  | left + 1, S, (forkNode, parent) :: queue =>
      match G.createThread S (99 - left) forkNode (some parent) with
      | (none, S') => loop left S' queue
      | (some t, S') => loop left S' (queue ++ G.forksOf S' t)

/-- The last step: entry threads without children are no threads, except among kernel entries. -/
def eraseWrongThreads : TreeState :=
  if G.isKernelModuleMode then S
  else { S with threads := S.threads.filter fun t =>
    !((S.thread t).parent.isNone && (S.thread t).children.isEmpty) }

/-- `build`. The loop over the forks stops after 100 turns. -/
def build : TreeState :=
  let s := G.entries.foldl G.createEntry (TreeState.empty, [])
  G.eraseWrongThreads (G.loop 100 s.1 s.2)

/-! ### The functions of a thread -/

variable {G S} {f g : FuncId} {p t u : ThreadId}

/-- A thread runs the functions that its main function reaches by calls. -/
theorem mem_functionsFrom :
    g ∈ G.functionsFrom f ↔ Relation.ReflTransGen (fun f g => g ∈ G.callees f) f g :=
  mem_visitAll

/-- A thread has the nodes of these functions. -/
theorem mem_nodes_startThread {forkNode n : NodeId} {parent : Option ThreadId} :
    n ∈ (G.startThread S forkNode parent f).nodes ↔
      ∃ g, Relation.ReflTransGen (fun f g => g ∈ G.callees f) f g ∧ n ∈ G.getNodes g := by
  show n ∈ G.nodesOf (G.functionsFrom f) ↔ _
  simp only [nodesOf, List.mem_dedup, List.mem_flatMap, mem_functionsFrom]

/-- The forks found for a thread are its own nodes that start one. -/
theorem mem_forksOf {x : NodeId × ThreadId} (hx : x ∈ G.forksOf S t) :
    x.2 = t ∧ G.type x.1 = .fork ∧ x.1 ∈ (S.thread t).nodes := by
  obtain ⟨n, hn, rfl⟩ := List.mem_map.mp hx
  obtain ⟨hmem, htype⟩ := List.mem_filter.mp hn
  exact ⟨rfl, by simpa using htype, hmem⟩

end ForkGraph

end Lace
