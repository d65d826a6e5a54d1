import Mathlib.Data.List.Basic
import Mathlib.Data.Int.Notation

/-!
# The concurrent control-flow program graph

The nodes and edges every analysis works on. A `CCPGNode` is named by its id and the graph
stores what the analyses read of a node: its type and whether it is a call site. The edges are
kept in the order in which the source iterates its edge set; nothing below depends on which
order that is.

## Main definitions

* `ThreadAPIType`: the node types of `ThreadAPIUtil::TYPE`;
* `CCPG`: a graph whose edges run between its own nodes;
* `CCPG.OrderStep`: one step along an `ORDER` edge.
-/

namespace Lace

/-- A `CCPGNode`, named by the id the graph gave it. -/
abbrev NodeId := ℤ

/-- `ThreadAPIUtil::TYPE`: what a node does, as far as threads and locks go. -/
inductive ThreadAPIType
  | dummy | fork | join | detach | acquire | tryAcquire | release | exit | cancel
  | condWait | condSignal | condBroadcast | mutexIni | mutexDestroy | condvarIni | condvarDestroy
  | barInit | barWait | assignment | otherCall | branch | loop | objectInit | goto | gotoTarget
  | controlStructure | return | global | hareParFor
  deriving DecidableEq, Repr

/-- `CCPGEdge::EdgeType`: why one node can come after another. -/
inductive CCPGEdgeType
  | order | hb | call
  deriving DecidableEq, Repr

/-- `CCPGEdge`: an edge of the graph with its type. -/
structure CCPGEdge where
  /-- Where the edge starts. -/
  src : NodeId
  /-- Where the edge ends. -/
  dst : NodeId
  /-- Control flow inside a function, fork to entry, or call. -/
  type : CCPGEdgeType
  deriving DecidableEq, Repr

/-- `CCPG`: the part of the graph that the analyses read after it is built. -/
structure CCPG where
  /-- The keys of `IDToCCPGNode`. -/
  nodes : List NodeId
  /-- `CCPGNode::getType`. -/
  type : NodeId → ThreadAPIType
  /-- `CCPGNode::isCallSite`. -/
  isCallSite : NodeId → Bool
  /-- `CCPG::getEdges`, in iteration order. -/
  edges : List CCPGEdge
  /-- `createCCPGEdge` only connects nodes of the graph. -/
  mem_nodes : ∀ e ∈ edges, e.src ∈ nodes ∧ e.dst ∈ nodes

namespace CCPG

/-- A graph without edges. -/
def ofNodes (nodes : List NodeId) (type : NodeId → ThreadAPIType) (isCallSite : NodeId → Bool) :
    CCPG where
  nodes := nodes
  type := type
  isCallSite := isCallSite
  edges := []
  mem_nodes := nofun

variable (G : CCPG)

/-- `CCPG::getNodeByID`: the node with an id, if the graph has it. -/
def getNodeByID (id : NodeId) : Option NodeId :=
  if id ∈ G.nodes then some id else none

/-- `CCPG::getNodesByType`: the nodes that do one kind of thing, in the order of the graph. -/
def getNodesByType (t : ThreadAPIType) : List NodeId :=
  G.nodes.filter fun n => G.type n = t

/-- `CCPGNode::getOutEdges`: the edges that leave a node. -/
def getOutEdges (n : NodeId) : List CCPGEdge :=
  G.edges.filter fun e => e.src = n

/-- The targets of the `ORDER` edges among the out edges of a node. -/
def orderSuccs (n : NodeId) : List NodeId :=
  ((G.getOutEdges n).filter fun e => e.type = .order).map CCPGEdge.dst

/-- `CCPG::hasCallEdge`, with the target of the edge it finds. -/
def hasCallEdge (n : NodeId) : Option NodeId :=
  ((G.getOutEdges n).find? fun e => e.type = .call).map CCPGEdge.dst

/-- One step along an `ORDER` edge. -/
def OrderStep (m n : NodeId) : Prop := ⟨m, n, .order⟩ ∈ G.edges

instance (m n : NodeId) : Decidable (G.OrderStep m n) :=
  inferInstanceAs (Decidable (_ ∈ G.edges))

theorem getNodeByID_of_mem {n : NodeId} (hn : n ∈ G.nodes) : G.getNodeByID n = some n := if_pos hn

theorem getNodeByID_of_not_mem {n : NodeId} (hn : n ∉ G.nodes) : G.getNodeByID n = none :=
  if_neg hn

/-- A node is found under its id exactly when it is in the graph. -/
@[simp]
theorem getNodeByID_eq_some {id n : NodeId} :
    G.getNodeByID id = some n ↔ id ∈ G.nodes ∧ id = n := by
  unfold getNodeByID
  split_ifs with h <;> simp [h]

@[simp]
theorem isSome_getNodeByID {id : NodeId} : (G.getNodeByID id).isSome = true ↔ id ∈ G.nodes := by
  unfold getNodeByID
  split_ifs with h <;> simp [h]

@[simp]
theorem mem_getNodesByType {t : ThreadAPIType} {n : NodeId} :
    n ∈ G.getNodesByType t ↔ n ∈ G.nodes ∧ G.type n = t := by
  simp [getNodesByType]

@[simp]
theorem mem_getOutEdges {n : NodeId} {e : CCPGEdge} :
    e ∈ G.getOutEdges n ↔ e ∈ G.edges ∧ e.src = n := by
  simp [getOutEdges]

/-- The `ORDER` successors of a node are the targets of its `ORDER` steps. -/
@[simp]
theorem mem_orderSuccs {m n : NodeId} : n ∈ G.orderSuccs m ↔ G.OrderStep m n := by
  simp only [orderSuccs, OrderStep, List.mem_map, List.mem_filter, mem_getOutEdges,
    decide_eq_true_eq]
  constructor
  · rintro ⟨⟨src, dst, type⟩, ⟨⟨he, rfl⟩, rfl⟩, rfl⟩
    exact he
  · intro h
    exact ⟨_, ⟨⟨h, rfl⟩, rfl⟩, rfl⟩

end CCPG

end Lace
