import Lace.CCPG.ThreadAPIUtil
import Lace.HBGraph.Build

/-!
# Join edges

`buildForkJoinEdges` orders a child's return nodes before what follows the child's join. It finds
the return nodes by their type, and the types come from `ThreadAPIUtil::getType`.

## Main definitions

* `ClassifiedInput`: an input whose node types are the classifier's;
* `ClassifiedInput.JoinsBefore`: a return that is over when a node after the join runs;
* `ClassifiedInput.JoinsComplete`: every such return has its edge, and orders what leads to it.

## Main results

* `HBInput.hbReachable_of_exits`: what leads to an exit is ordered before what follows the join;
* `joinsComplete_iff_type`: the joins are complete where the returns have their type;
* `joinsComplete_iff`: with the classifier, that is where nothing has to be ordered.
-/

namespace Lace

open Library

namespace HBInput

variable {I : HBInput} {child : ThreadId} {join next ex n : NodeId}

/-- An exit of a child has an edge to every node after the join. -/
theorem exists_join_edge (hchild : child ∈ I.tree.threads)
    (hjoin : (I.tree.thread child).joinNode = some join) (hnext : I.ccpg.OrderStep join next)
    (hex : ex ∈ I.exits child) :
    ∃ e ∈ I.build.edges, e.src = ex ∧ e.dst = next ∧ e.kind = .joinFromExit :=
  mem_build.mpr (.join hchild hjoin hnext hex)

/-- Control flow is part of the graph. -/
theorem step_of_orderStep {m n : NodeId} (h : I.ccpg.OrderStep m n) : I.build.Step m n := by
  obtain ⟨e, he, hsrc, hdst, -⟩ := mem_build.mpr (Edge.program (I := I) ⟨m, n, .order⟩ h)
  exact ⟨e, he, hsrc, hdst⟩

/-- Within the cap, what leads to an exit of a child is ordered before what follows the join, over
a synchronization edge. -/
theorem hbReachable_of_exits (hchild : child ∈ I.tree.threads)
    (hjoin : (I.tree.thread child).joinNode = some join) (hnext : I.ccpg.OrderStep join next)
    (hex : ex ∈ I.exits child) {k : ℕ} (hwalk : Steps I.ccpg.OrderStep n k ex) (hne : n ≠ next)
    {maxDepth : ℤ} (hcap : k + 1 ≤ (envInt I.env.hbMaxDepth maxDepth).toNat)
    (policy : SyncPolicy) :
    I.build.hbReachable I.env n next maxDepth true policy = true := by
  rw [HBGraph.hbReachable_iff, if_neg hne]
  have hsteps : Steps I.build.Step n k ex := hwalk.mono fun _ _ => step_of_orderStep
  obtain ⟨c, hc⟩ : ∃ c, Steps (I.build.SyncStep policy) (n, false) k (ex, c) :=
    HBGraph.steps_exists_flag hsteps false
  obtain ⟨e, he, hsrc, hdst, hkind⟩ := exists_join_edge hchild hjoin hnext hex
  -- The join edge itself is the synchronization edge.
  have hsync : isSyncEdge e.kind policy = true := by rw [hkind]; rfl
  refine ⟨k + 1, true, hcap, hc.tail ⟨e, he, hsrc, hdst, ?_⟩, fun _ => rfl⟩
  rw [hsync, Bool.or_true]

end HBInput

/-- An input of `HBGraph::build` whose nodes `createCCPGNode` made. -/
structure ClassifiedInput extends HBInput where
  /-- `ThreadAPIUtil::getInstance`. -/
  api : ThreadAPIUtil
  /-- `CCPGNode::getCPGNode`. -/
  cpgNode : NodeId → CPGNode
  /-- A node gets its type from the classifier. -/
  type_eq : ∀ n, toHBInput.ccpg.type n = api.getType (cpgNode n)

namespace ClassifiedInput

variable (C : ClassifiedInput)

/-- The node `ex` of `child` is a return, and `next` follows the join of `child`. -/
structure JoinsBefore (child : ThreadId) (ex next : NodeId) : Prop where
  child_mem : child ∈ C.tree.threads
  join : ∃ join, (C.tree.thread child).joinNode = some join ∧ C.ccpg.OrderStep join next
  ex_mem : ex ∈ (C.tree.thread child).nodes
  isReturn : ThreadAPIUtil.isReturn (C.cpgNode ex) = true

/-- Every return of a child has an edge to what follows the join, and within the cap every node
with a path to the return is ordered before it. -/
def JoinsComplete : Prop :=
  ∀ child ex next, C.JoinsBefore child ex next →
    (∃ e ∈ C.build.edges, e.src = ex ∧ e.dst = next ∧ e.kind = .joinFromExit) ∧
    ∀ n k maxDepth policy, Steps C.ccpg.OrderStep n k ex → n ≠ next →
      k + 1 ≤ (envInt C.env.hbMaxDepth maxDepth).toNat →
        C.build.hbReachable C.env n next maxDepth true policy = true

variable {C} {child : ThreadId} {ex next : NodeId}

/-- A join edge starts at a node with the type of a return. -/
theorem type_of_join_edge (h : ∃ e ∈ C.build.edges, e.src = ex ∧ e.dst = next ∧
    e.kind = .joinFromExit) : C.ccpg.type ex = .return := by
  generalize hkind : HBEdgeKind.joinFromExit = kind at h
  cases HBInput.mem_build.mp h with
  | program e _ => cases htype : e.type <;> simp [htype, HBInput.programOrderLabel] at hkind
  | join _ _ _ hex => simpa using (List.mem_filter.mp hex).2
  | lock | completion | register | rcu => cases hkind

/-- The joins are complete exactly if all returns that have to be ordered have their type. -/
theorem joinsComplete_iff_type : C.JoinsComplete ↔
    ∀ child ex next, C.JoinsBefore child ex next → C.ccpg.type ex = .return := by
  constructor
  · intro h child ex next hbefore
    exact type_of_join_edge (h child ex next hbefore).1
  · intro h child ex next hbefore
    obtain ⟨join, hjoin, hnext⟩ := hbefore.join
    have hexit : ex ∈ C.exits child :=
      List.mem_filter.mpr ⟨hbefore.ex_mem, by simpa using h child ex next hbefore⟩
    refine ⟨HBInput.exists_join_edge hbefore.child_mem hjoin hnext hexit, ?_⟩
    intro n k maxDepth policy hwalk hne hcap
    exact HBInput.hbReachable_of_exits hbefore.child_mem hjoin hnext hexit hwalk hne hcap policy

/-- No node has the type of a return, so the joins are complete exactly if no return has to be
ordered. -/
theorem joinsComplete_iff (C : ClassifiedInput) :
    C.JoinsComplete ↔ ∀ child ex next, ¬C.JoinsBefore child ex next := by
  rw [joinsComplete_iff_type]
  refine forall₃_congr fun child ex next => imp_congr_right fun _ => ?_
  rw [C.type_eq ex, iff_false]
  exact ThreadAPIUtil.getType_ne_return C.api (C.cpgNode ex)

/-! ### A join without an edge -/

/-- `pthread_create` and `pthread_join`. -/
def pthreadAPI : ThreadAPIUtil where
  threadAPIMap name :=
    if name = "pthread_create" then some .fork
    else if name = "pthread_join" then some .join else none

/-- A fork, its join and a call after it; the child's function with its return. -/
def forkJoinNode (n : NodeId) : CPGNode :=
  if n = 1 then ⟨"Call", "pthread_create", "", 1⟩
  else if n = 2 then ⟨"Call", "pthread_join", "", 1⟩
  else if n = 3 then ⟨"Call", "use", "", 1⟩
  else if n = 4 then ⟨"Method", "worker", "", 1⟩
  else ⟨"Return", "", "", 1⟩

/-- Nodes 1 to 3 of the parent, 4 and 5 of the child. -/
def forkJoinGraph : CCPG where
  nodes := [1, 2, 3, 4, 5]
  type n := pthreadAPI.getType (forkJoinNode n)
  isCallSite n := n ≤ 3
  edges := [⟨1, 2, .order⟩, ⟨2, 3, .order⟩, ⟨4, 5, .order⟩, ⟨1, 4, .hb⟩]
  mem_nodes := by decide

/-- The parent and the child, joined at node 2. -/
def forkJoinTree : ThreadCreationTree where
  ccpg := forkJoinGraph
  threads := [0, 1]
  thread t :=
    if t = 1 then ⟨some 0, 1, some 2, [4, 5], false, false, "worker"⟩
    else ⟨none, 1, none, [1, 2, 3], true, false, "main"⟩
  parent_lt t p h := by
    split_ifs at h with ht
    have hp : 0 = p := Option.some.inj h
    rw [ht, ← hp]
    exact Nat.zero_lt_one
  forkNode_inj t u ht hu _ := by
    split_ifs at ht hu with ht' hu'
    · exact ht'.trans hu'.symm
    · exact absurd rfl hu
    · exact absurd rfl ht
    · exact absurd rfl ht
  isKernelEntry_of_ne t u ht hu htu := by
    split_ifs at ht with ht'
    rw [if_neg ht']

/-- The program above, without locks. -/
def forkJoin : ClassifiedInput where
  tree := forkJoinTree
  filters := ⟨none, none⟩
  ir := ⟨fun _ => none, fun _ => none, fun _ _ => false, id, fun _ => .other⟩
  locks := []
  id_inj := nofun
  mainFuncNode t := some (if t = 1 then 4 else 1)
  env := ⟨none, none, false⟩
  rcuFamilies := [.vanilla, .bh, .sched, .srcu, .tasks]
  rcuFamilies_perm := HBInput.declared_families_perm
  rcuThreads _ := [0, 1]
  rcuThreads_perm _ := List.Perm.refl forkJoinTree.threads
  api := pthreadAPI
  cpgNode := forkJoinNode
  type_eq _ := rfl

/-- The return of the child is kept, the join was found, and yet nothing is ordered: there is no
join edge, and no path from the return to the call after the join. -/
theorem forkJoin_not_joinsComplete :
    forkJoin.JoinsBefore 1 5 3 ∧
      pthreadAPI.isCCPGNode (forkJoinNode 5) = true ∧
      (∀ e ∈ forkJoin.build.edges, e.kind ≠ .joinFromExit) ∧
      forkJoin.build.hbReachable forkJoin.env 5 3 64 true .allMechanisms = false := by
  refine ⟨⟨by decide, ⟨2, rfl, by decide⟩, by decide, by decide⟩, ?_, ?_, ?_⟩
  · decide
  · decide +kernel
  · decide +kernel

end ClassifiedInput

end Lace
