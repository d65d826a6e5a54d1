import Lace.CCPG.NodeLoc
import Lace.Library.Flood
import Lace.ThreadTree.CallPath
import Lace.ThreadTree.Execution

/-!
# Parallel locations

`computeParallelLocs`: for two threads that may run concurrently, the locations of each that can run
in parallel with the other, with a calling context. Siblings get all their locations. A descendant
gets all of its locations, and its ancestor those of the nodes that are reachable from the fork of
the descendant and from which its join is reachable, if it has one. Other threads get none.

What the ancestor should get are the nodes it can be at while the descendant is alive
(`ThreadProgram.LiveAt`). For a child these are the nodes on the paths from the fork that have not
executed the join.

## Main definitions

* `LocatedTree`: a thread tree with the locations of the nodes;
* `LocatedTree.getReachableNodes`, `LocatedTree.computeParallelLocs`;
* `LocatedTree.Live`: where an ancestor can be while a descendant is alive;
* `LocatedTree.ParallelLocsSound`: the locations are all there.

## Main results

* `mem_getReachableNodes_iff`, `mem_getReachableNodes_backward_iff`: the two searches;
* `live_of_reachable`: where an ancestor is while a descendant is alive;
* `parallelLocsSound_iff`: when the locations are all there.
-/

namespace Lace

open Library Library.Forest

/-- A `ThreadCreationTree` with the locations and the functions of its nodes. -/
structure LocatedTree extends ThreadCreationTree where
  /-- The graph with its functions. -/
  graph : FunctionGraph
  /-- It is the graph of the tree. -/
  graph_eq : graph.toCCPG = ccpg
  /-- `getNodeLoc`. -/
  nodeLoc : NodeId → NodeLoc
  /-- `getThreadMainFunction`, which every thread of the tree has. -/
  threadMainFunction : ThreadId → FuncId
  /-- `getFunctions`. -/
  functions : ThreadId → List FuncId
  /-- The nodes of a thread are nodes of functions. -/
  mem_getNodes : ∀ t, ∀ n ∈ (thread t).nodes, ∃ f ∈ graph.functions, n ∈ graph.getNodes f
  /-- A thread is forked at a node of its parent. -/
  forkNode_mem : ∀ t p, (thread t).parent = some p → (thread t).forkNode ∈ (thread p).nodes

/-- The locations of a thread with a context for each, as an unordered map. -/
abbrev LocMap := List (NodeLoc × Context)

/-- `find`: the locations are compared by `operator==`. -/
def LocMap.contains (locs : LocMap) (loc : NodeLoc) : Bool := locs.any fun entry => entry.1.same loc

namespace LocatedTree

variable (T : LocatedTree)

/-- `Thread::getNodes`: the nodes that a thread runs. -/
def getNodes (t : ThreadId) : List NodeId := (T.thread t).nodes

/-- The next nodes: along the out edges, or against the in edges. -/
def neighbors (forward : Bool) (n : NodeId) : List NodeId :=
  if forward then (T.ccpg.getOutEdges n).map CCPGEdge.dst
  else (T.ccpg.edges.filter fun e => e.dst = n).map CCPGEdge.src

/-- `getReachableNodes`: the nodes of a thread that come after a node, or before it. -/
def getReachableNodes (startNode : NodeId) (t : ThreadId) (forward : Bool) : List NodeId :=
  if startNode ∈ T.getNodes t then
    flood (T.getNodes t).toFinset (T.neighbors forward) [startNode] [startNode]
  else []

/-- The context of a node in a function: the fork node and the call path. -/
def contextOf (t : ThreadId) (f : FuncId) : Context :=
  (T.thread t).forkNode :: T.graph.findCallPath (T.functions t) (T.threadMainFunction t) f

/-- One turn of the loops over the nodes of a thread. -/
def addLoc (t : ThreadId) (locs : LocMap) (n : NodeId) : LocMap :=
  let loc := T.nodeLoc n
  if 0 < loc.lineNumber && !locs.contains loc then
    match T.graph.getFunction n with
    | none => locs
    | some currentFunc => locs ++ [(loc, T.contextOf t currentFunc)]
  else locs

/-- `build_all_contexts`: all locations of a thread. -/
def buildAllContexts (t : ThreadId) : LocMap := (T.getNodes t).foldl (T.addLoc t) []

/-- `concurrentScope`: what a parent runs between the fork and the join of a child. -/
def concurrentScope (parent child : ThreadId) : List NodeId :=
  let reachableFromFork := T.getReachableNodes (T.thread child).forkNode parent true
  match (T.thread child).joinNode with
  | none => reachableFromFork
  | some joinNode =>
      reachableFromFork.filter (· ∈ T.getReachableNodes joinNode parent false)

/-- The locations of the ancestor. -/
def parentLocs (parent child : ThreadId) : LocMap :=
  (T.concurrentScope parent child).foldl (T.addLoc parent) []

/-- `computeParallelLocs`: the locations at which two threads may run at the same time. -/
def computeParallelLocs (F : EntryFilters) (t1 t2 : ThreadId) : LocMap × LocMap :=
  if !T.mayThreadsRunConcurrently F t1 t2 then ([], [])
  else if (T.parent t1).isSome && T.parent t1 = T.parent t2 then
    (T.buildAllContexts t1, T.buildAllContexts t2)
  else if T.isDescendant t2 t1 then (T.parentLocs t1 t2, T.buildAllContexts t2)
  else if T.isDescendant t1 t2 then (T.buildAllContexts t1, T.parentLocs t2 t1)
  else ([], [])

/-! ### What the loops compute -/

section Loops

variable {T} {t : ThreadId} {m n start : NodeId} {loc loc' : NodeLoc} {locs : LocMap}
  {nodes : List NodeId}

/-- A lookup depends on what compares equal only. -/
theorem contains_congr (h : loc.same loc' = true) : locs.contains loc = locs.contains loc' := by
  unfold LocMap.contains
  refine congrArg locs.any (funext fun entry => ?_)
  rw [Bool.eq_iff_iff]
  exact ⟨fun h' => NodeLoc.same_trans h' h, fun h' => NodeLoc.same_trans h' (NodeLoc.same_comm h)⟩

/-- A node of a thread belongs to a function. -/
theorem getFunction_isSome (hn : n ∈ T.getNodes t) : ∃ f, T.graph.getFunction n = some f := by
  obtain ⟨f, hf, hmem⟩ := T.mem_getNodes t n hn
  exact ⟨f, T.graph.getFunction_of_mem f hf n hmem⟩

/-- Adding a node adds its location, if it has a line. -/
theorem contains_addLoc (hn : n ∈ T.getNodes t) : (T.addLoc t locs n).contains loc = true ↔
    locs.contains loc = true ∨ 0 < (T.nodeLoc n).lineNumber ∧ (T.nodeLoc n).same loc = true := by
  obtain ⟨f, hf⟩ := getFunction_isSome hn
  unfold addLoc
  by_cases hline : 0 < (T.nodeLoc n).lineNumber
  · cases hc : locs.contains (T.nodeLoc n) with
    | false =>
        simp only [hline, hc, hf, decide_true, Bool.not_false, Bool.and_self, if_true, true_and]
        rw [LocMap.contains, List.any_append, Bool.or_eq_true, LocMap.contains]
        simp
    | true =>
        -- The location is there already.
        simp only [hline, hc, decide_true, Bool.not_true, Bool.and_false, Bool.false_eq_true,
          if_false, true_and]
        refine ⟨Or.inl, fun h => h.elim id fun hsame => ?_⟩
        rw [← contains_congr hsame]
        exact hc
  · simp [hline]

/-- The loops collect the locations of the nodes that have a line. -/
theorem contains_foldl_addLoc (hnodes : ∀ n ∈ nodes, n ∈ T.getNodes t) :
    (nodes.foldl (T.addLoc t) locs).contains loc = true ↔ locs.contains loc = true ∨
      ∃ n ∈ nodes, 0 < (T.nodeLoc n).lineNumber ∧ (T.nodeLoc n).same loc = true := by
  induction nodes generalizing locs with
  | nil => simp
  | cons n nodes ih =>
      rw [List.foldl_cons, ih fun m hm => hnodes m (List.mem_cons_of_mem n hm),
        contains_addLoc (hnodes n List.mem_cons_self), or_assoc, List.exists_mem_cons_iff]

/-- The walk stays in the thread. -/
theorem getReachableNodes_subset {forward : Bool} :
    ∀ n ∈ T.getReachableNodes start t forward, n ∈ T.getNodes t := by
  intro n hn
  unfold getReachableNodes at hn
  split_ifs at hn with hstart
  · rw [mem_flood] at hn
    rcases Relation.ReflTransGen.cases_tail hn with rfl | ⟨m, -, hstep⟩
    · exact hstart
    · exact List.mem_toFinset.mp hstep.2
  · cases hn

/-- The forward search finds what is reachable through the thread. -/
theorem mem_getReachableNodes_iff : n ∈ T.getReachableNodes start t true ↔
    start ∈ T.getNodes t ∧ Relation.ReflTransGen (T.ThreadStep t) start n := by
  have hstep : FloodStep (T.getNodes t).toFinset (T.neighbors true) = T.ThreadStep t := by
    ext m n
    simp [FloodStep, neighbors, ThreadCreationTree.ThreadStep, getNodes, and_assoc]
  unfold getReachableNodes
  split_ifs with hstart
  · rw [mem_flood, hstep, and_iff_right hstart]
  · simp [hstart]

/-- The backward search finds what the start is reachable from. -/
theorem mem_getReachableNodes_backward_iff : n ∈ T.getReachableNodes start t false ↔
    start ∈ T.getNodes t ∧ n ∈ T.getNodes t ∧
      Relation.ReflTransGen (T.ThreadStep t) n start := by
  have hstep : ∀ m n, FloodStep (T.getNodes t).toFinset (T.neighbors false) m n ↔
      (∃ e ∈ T.ccpg.edges, e.src = n ∧ e.dst = m) ∧ n ∈ T.getNodes t := by
    intro m n
    simp [FloodStep, neighbors, and_comm, and_assoc]
  unfold getReachableNodes
  split_ifs with hstart
  · rw [mem_flood, and_iff_right hstart]
    -- A walk against the edges is a walk along them, taken from its end.
    constructor
    · intro h
      induction h with
      | refl => exact ⟨hstart, .refl⟩
      | @tail m n _ hmn ih =>
          obtain ⟨hedge, hn⟩ := (hstep m n).mp hmn
          exact ⟨hn, ih.2.head ⟨hedge, ih.1⟩⟩
    · rintro ⟨hn, h⟩
      induction h using Relation.ReflTransGen.head_induction_on with
      | refl => exact .refl
      | @head n m hnm _ ih => exact (ih hnm.2).tail ((hstep m n).mpr ⟨hnm.1, hn⟩)
  · simp [hstart]

end Loops

/-! ### The specification -/

/-- The node has a line. -/
def Located (n : NodeId) : Prop := 0 < (T.nodeLoc n).lineNumber

/-- The program whose threads run along the graph. -/
def program : ThreadProgram :=
  .ofCFG T.toThreadCreationTree fun t => T.graph.getFuncNode (T.threadMainFunction t)

/-- The ancestor `a` can be at the node while its descendant `d` is alive: it has executed the fork
of the thread `q` on the way to `d`, and has not joined `q` since, unless some thread on the way can
end without having joined the next one. -/
def Live (a d : ThreadId) (n : NodeId) : Prop :=
  ∃ q, Under T.parent d q ∧ T.parent q = some a ∧ T.program.LiveAt q d n

/-- The map has the location of every node of the thread with a line. -/
def HasAll (locs : LocMap) (t : ThreadId) : Prop :=
  ∀ n ∈ T.getNodes t, T.Located n → locs.contains (T.nodeLoc n) = true

/-- The map has the location of every node of the ancestor with a line that it can be at while the
descendant is alive. -/
def HasLive (locs : LocMap) (a d : ThreadId) : Prop :=
  ∀ n ∈ T.getNodes a, T.Located n → T.Live a d n → locs.contains (T.nodeLoc n) = true

/-- The maps of `computeParallelLocs` have all parallel locations. -/
structure ParallelLocsSound (F : EntryFilters) (t1 t2 : ThreadId) : Prop where
  /-- The first thread is an ancestor of the second one. -/
  left : Below T.parent t2 t1 → T.HasLive (T.computeParallelLocs F t1 t2).1 t1 t2 ∧
    T.HasAll (T.computeParallelLocs F t1 t2).2 t2
  /-- The second thread is an ancestor of the first one. -/
  right : Below T.parent t1 t2 → T.HasAll (T.computeParallelLocs F t1 t2).1 t1 ∧
    T.HasLive (T.computeParallelLocs F t1 t2).2 t2 t1
  /-- Neither is an ancestor of the other one. -/
  unrelated : ¬Below T.parent t2 t1 → ¬Below T.parent t1 t2 →
    T.HasAll (T.computeParallelLocs F t1 t2).1 t1 ∧ T.HasAll (T.computeParallelLocs F t1 t2).2 t2

/-- The node is reachable from the fork of the descendant, and its join, if there is one, is
reachable from the node. -/
def BetweenForkAndJoin (a d : ThreadId) (n : NodeId) : Prop :=
  (T.thread d).forkNode ∈ T.getNodes a ∧
    Relation.ReflTransGen (T.ThreadStep a) (T.thread d).forkNode n ∧
    ∀ join, (T.thread d).joinNode = some join →
      join ∈ T.getNodes a ∧ Relation.ReflTransGen (T.ThreadStep a) n join

/-- The descendant is a child without a join, or every node of the ancestor with a line that it can
be at while the descendant is alive has the location of a node between fork and join. -/
def AncestorCovered (a d : ThreadId) : Prop :=
  T.parent d = some a ∧ (T.thread d).joinNode = none ∨
    ∀ n ∈ T.getNodes a, T.Located n → T.Live a d n →
      ∃ m, T.BetweenForkAndJoin a d m ∧ (T.nodeLoc m).same (T.nodeLoc n) = true

/-- When the maps have all parallel locations. -/
structure ParallelLocsCovered (t1 t2 : ThreadId) : Prop where
  left : Below T.parent t2 t1 → T.AncestorCovered t1 t2
  right : Below T.parent t1 t2 → T.AncestorCovered t2 t1
  unrelated : ¬Below T.parent t2 t1 → ¬Below T.parent t1 t2 →
    (∃ p, T.parent t1 = some p ∧ T.parent t2 = some p) ∨
      (∀ n ∈ T.getNodes t1, ¬T.Located n) ∧ ∀ n ∈ T.getNodes t2, ¬T.Located n

variable {T} {F : EntryFilters} {a d t t1 t2 : ThreadId} {n : NodeId} {loc : NodeLoc}

/-! ### Where an ancestor can be -/

/-- An ancestor has a smaller name. -/
theorem lt_of_below (h : Below T.parent t1 t2) : t2 < t1 := by
  induction h with
  | single hp => exact T.parent_lt_self hp
  | tail _ hp ih => exact (T.parent_lt_self hp).trans ih

/-- Threads come after their ancestors. -/
theorem le_of_under (h : Under T.parent t1 t2) : t2 ≤ t1 := by
  rcases under_iff.mp h with rfl | hbelow
  · exact le_rfl
  · exact (lt_of_below hbelow).le

/-- While a descendant is alive, an ancestor is at a node where it can be then. -/
theorem live_of_reachable {s : List ThreadInstance} {x z : ℕ} (h : T.program.Reachable s)
    (hx : ThreadProgram.nodeAt s x ≠ none) (hz : ThreadProgram.nodeAt s z = some n)
    (hxz : Below (ThreadProgram.parentAt s) x z) :
    T.Live (ThreadProgram.threadAt s z) (ThreadProgram.threadAt s x) n := by
  have hlink := (ThreadProgram.Inv.of_reachable h).toLinked
  obtain ⟨y, hxy, hyz⟩ := Relation.TransGen.tail'_iff.mp hxz
  exact ⟨_, Under.map hlink.parent_eq hxy, hlink.parent_threadAt hyz,
    hlink.liveAt hx hxy hyz hz⟩

/-- A parent can be at a node while a child is alive if it lies on a path from the fork that has not
executed the join. -/
theorem live_child_iff (hp : T.parent d = some a) : T.Live a d n ↔ T.program.Unjoined d n := by
  constructor
  · rintro ⟨q, hdq, hq, hlive⟩
    -- No thread is above itself.
    have hqd : d = q := by
      rcases hdq.eq_or_parent with heq | ⟨p, hp', hpq⟩
      · exact heq
      · obtain rfl : a = p := Option.some.inj (hp.symm.trans hp')
        exact absurd (T.parent_lt_self hq) (le_of_under hpq).not_gt
    subst hqd
    rcases hlive with hlive | ⟨-, e, hde, hed, -⟩
    · exact hlive
    · exact absurd (lt_of_below hed) (le_of_under hde).not_gt
  · exact fun h => ⟨d, Under.refl d, hp, Or.inl h⟩

/-- Where the parent of a thread can be after the fork is reachable from it through the parent. -/
theorem reflTransGen_of_after {stop : Option NodeId} (hp : T.parent d = some a)
    (h : T.program.After d stop n) :
    Relation.ReflTransGen (T.ThreadStep a) (T.thread d).forkNode n := by
  induction h with
  | fork hp' hflow =>
      obtain rfl := Option.some.inj (hp.symm.trans hp')
      exact .single hflow
  | step _ _ hp' hflow ih =>
      obtain rfl := Option.some.inj (hp.symm.trans hp')
      exact ih.tail hflow

/-! ### The maps -/

/-- The locations of a thread are those of its nodes with a line. -/
theorem contains_buildAllContexts : (T.buildAllContexts t).contains loc = true ↔
    ∃ n ∈ T.getNodes t, T.Located n ∧ (T.nodeLoc n).same loc = true := by
  rw [buildAllContexts, contains_foldl_addLoc fun _ hn => hn]
  simp [LocMap.contains, Located]

/-- All nodes of a thread are found there. -/
theorem hasAll_buildAllContexts : T.HasAll (T.buildAllContexts t) t := fun n hn hloc =>
  contains_buildAllContexts.mpr ⟨n, hn, hloc, NodeLoc.same_refl _⟩

/-- The scope are the nodes between the fork and the join. -/
theorem mem_concurrentScope : n ∈ T.concurrentScope a d ↔ T.BetweenForkAndJoin a d n := by
  unfold concurrentScope BetweenForkAndJoin
  cases hjoin : (T.thread d).joinNode with
  | none => simp [mem_getReachableNodes_iff]
  | some join =>
      simp only [List.mem_filter, mem_getReachableNodes_iff, decide_eq_true_eq,
        mem_getReachableNodes_backward_iff, Option.some.injEq, forall_eq']
      constructor
      · rintro ⟨⟨hfork, hreach⟩, hmem, -, hback⟩
        exact ⟨hfork, hreach, hmem, hback⟩
      · rintro ⟨hfork, hreach, hmem, hback⟩
        have hn : n ∈ T.getReachableNodes (T.thread d).forkNode a true :=
          mem_getReachableNodes_iff.mpr ⟨hfork, hreach⟩
        exact ⟨⟨hfork, hreach⟩, hmem, getReachableNodes_subset n hn, hback⟩

/-- The locations of the parent are those of this scope. -/
theorem contains_parentLocs : (T.parentLocs a d).contains loc = true ↔
    ∃ m, T.BetweenForkAndJoin a d m ∧ T.Located m ∧ (T.nodeLoc m).same loc = true := by
  have hsub : ∀ m ∈ T.concurrentScope a d, m ∈ T.getNodes a := fun m hm => by
    obtain ⟨hfork, hreach, -⟩ := mem_concurrentScope.mp hm
    exact getReachableNodes_subset m (mem_getReachableNodes_iff.mpr ⟨hfork, hreach⟩)
  rw [parentLocs, contains_foldl_addLoc hsub]
  simp [LocMap.contains, Located, mem_concurrentScope]

/-- The locations of an ancestor are all there exactly if it is covered. -/
theorem hasLive_parentLocs_iff : T.HasLive (T.parentLocs a d) a d ↔ T.AncestorCovered a d := by
  constructor
  · refine fun h => Or.inr fun n hn hloc hlive => ?_
    obtain ⟨m, hm, -, hsame⟩ := contains_parentLocs.mp (h n hn hloc hlive)
    exact ⟨m, hm, hsame⟩
  · rintro (⟨hp, hjoin⟩ | h) n hn hloc hlive
    · -- Without a join, the nodes behind the fork are the ones between fork and join.
      have hreach := reflTransGen_of_after hp ((live_child_iff hp).mp hlive)
      refine contains_parentLocs.mpr ⟨n, ⟨T.forkNode_mem d a hp, hreach, fun join hj => ?_⟩, hloc,
        NodeLoc.same_refl _⟩
      rw [hjoin] at hj
      cases hj
    · -- A node at the same location has the same line.
      obtain ⟨m, hm, hsame⟩ := h n hn hloc hlive
      refine contains_parentLocs.mpr ⟨m, hm, ?_, hsame⟩
      rw [Located, (NodeLoc.same_iff.mp hsame).1]
      exact hloc

/-! ### The cases of `computeParallelLocs` -/

/-- Siblings have a common parent. -/
theorem siblings_iff : ((T.parent t1).isSome && T.parent t1 = T.parent t2) = true ↔
    ∃ p, T.parent t1 = some p ∧ T.parent t2 = some p := by
  cases hp : T.parent t1 with
  | none => simp
  | some p => simp [eq_comm]

/-- A thread and its descendant have different parents. -/
theorem not_siblings_of_below (h : Below T.parent t2 t1) :
    ¬∃ p, T.parent t1 = some p ∧ T.parent t2 = some p := by
  rintro ⟨p, hp1, hp2⟩
  obtain ⟨q, hq, hqt⟩ := below_iff.mp h
  obtain rfl : p = q := Option.some.inj (hp2.symm.trans hq)
  exact absurd (T.parent_lt_self hp1) (le_of_under hqt).not_gt

/-- Of two threads only one is below the other. -/
theorem not_below_of_below (h : Below T.parent t2 t1) : ¬Below T.parent t1 t2 := fun h' =>
  (lt_of_below h).asymm (lt_of_below h')

/-- The map of an ancestor and the map of its descendant, in the order of the threads. -/
theorem computeParallelLocs_left (hc : T.mayThreadsRunConcurrently F t1 t2 = true)
    (h : Below T.parent t2 t1) :
    T.computeParallelLocs F t1 t2 = (T.parentLocs t1 t2, T.buildAllContexts t2) := by
  have hsib := mt siblings_iff.mp (not_siblings_of_below h)
  rw [computeParallelLocs, hc, if_neg hsib, T.isDescendant_iff.mpr h]
  rfl

/-- For a descendant, the parent is cut to its scope. -/
theorem computeParallelLocs_right (hc : T.mayThreadsRunConcurrently F t1 t2 = true)
    (h : Below T.parent t1 t2) :
    T.computeParallelLocs F t1 t2 = (T.buildAllContexts t1, T.parentLocs t2 t1) := by
  have hsib : ¬((T.parent t1).isSome && T.parent t1 = T.parent t2) = true := fun hsib => by
    obtain ⟨p, hp1, hp2⟩ := siblings_iff.mp hsib
    exact not_siblings_of_below h ⟨p, hp2, hp1⟩
  have hnot : ¬T.isDescendant t2 t1 = true := mt T.isDescendant_iff.mp (not_below_of_below h)
  rw [computeParallelLocs, hc, if_neg hsib, if_neg hnot, T.isDescendant_iff.mpr h]
  rfl

/-- Threads that are not above each other get all their locations as siblings, and else none. -/
theorem computeParallelLocs_unrelated (hc : T.mayThreadsRunConcurrently F t1 t2 = true)
    (h : ¬Below T.parent t2 t1) (h' : ¬Below T.parent t1 t2) :
    T.computeParallelLocs F t1 t2 =
      if (T.parent t1).isSome && T.parent t1 = T.parent t2 then
        (T.buildAllContexts t1, T.buildAllContexts t2)
      else ([], []) := by
  rw [computeParallelLocs, hc, if_neg (mt T.isDescendant_iff.mp h),
    if_neg (mt T.isDescendant_iff.mp h')]
  rfl

/-- A thread has all its locations in the empty map if it has none. -/
theorem hasAll_nil_iff : T.HasAll [] t ↔ ∀ n ∈ T.getNodes t, ¬T.Located n := by
  simp [HasAll, LocMap.contains]

/-- Of threads neither of which is below the other, all nodes are found for siblings only, as long
as some node has a line. -/
theorem unrelated_iff (hc : T.mayThreadsRunConcurrently F t1 t2 = true)
    (h : ¬Below T.parent t2 t1) (h' : ¬Below T.parent t1 t2) :
    (T.HasAll (T.computeParallelLocs F t1 t2).1 t1 ∧
        T.HasAll (T.computeParallelLocs F t1 t2).2 t2) ↔
      (∃ p, T.parent t1 = some p ∧ T.parent t2 = some p) ∨
        (∀ n ∈ T.getNodes t1, ¬T.Located n) ∧ ∀ n ∈ T.getNodes t2, ¬T.Located n := by
  rw [computeParallelLocs_unrelated hc h h']
  by_cases hsib : ((T.parent t1).isSome && T.parent t1 = T.parent t2) = true
  · rw [if_pos hsib]
    exact iff_of_true ⟨hasAll_buildAllContexts, hasAll_buildAllContexts⟩
      (Or.inl (siblings_iff.mp hsib))
  · rw [if_neg hsib, hasAll_nil_iff, hasAll_nil_iff, or_iff_right (mt siblings_iff.mpr hsib)]

/-- `computeParallelLocs` has all parallel locations exactly if the threads are covered. -/
theorem parallelLocsSound_iff (hc : T.mayThreadsRunConcurrently F t1 t2 = true) :
    T.ParallelLocsSound F t1 t2 ↔ T.ParallelLocsCovered t1 t2 := by
  have hleft : Below T.parent t2 t1 → ((T.HasLive (T.computeParallelLocs F t1 t2).1 t1 t2 ∧
      T.HasAll (T.computeParallelLocs F t1 t2).2 t2) ↔ T.AncestorCovered t1 t2) := fun h => by
    rw [computeParallelLocs_left hc h, and_iff_left hasAll_buildAllContexts]
    exact hasLive_parentLocs_iff
  have hright : Below T.parent t1 t2 → ((T.HasAll (T.computeParallelLocs F t1 t2).1 t1 ∧
      T.HasLive (T.computeParallelLocs F t1 t2).2 t2 t1) ↔ T.AncestorCovered t2 t1) := fun h => by
    rw [computeParallelLocs_right hc h, and_iff_right hasAll_buildAllContexts]
    exact hasLive_parentLocs_iff
  -- The three clauses are about disjoint cases.
  constructor
  · intro h
    exact ⟨fun hb => (hleft hb).mp (h.left hb), fun hb => (hright hb).mp (h.right hb),
      fun hb hb' => (unrelated_iff hc hb hb').mp (h.unrelated hb hb')⟩
  · intro h
    exact ⟨fun hb => (hleft hb).mpr (h.left hb), fun hb => (hright hb).mpr (h.right hb),
      fun hb hb' => (unrelated_iff hc hb hb').mpr (h.unrelated hb hb')⟩

/-! ### An entry that returns early

Entry 0 forks worker 1 at node 1, and returns at node 3 or goes on to node 4. Entry 2 has one node.
-/

/-- The code of the entries (nodes 0 to 4 and 20) and of the worker (node 10). -/
def earlyReturnGraph : FunctionGraph where
  nodes := [0, 1, 2, 3, 4, 10, 20]
  type n := if n = 1 then .fork else if n = 2 then .branch else if n = 4 then .join else .assignment
  isCallSite n := n = 1 ∨ n = 4
  edges := [⟨0, 1, .order⟩, ⟨1, 2, .order⟩, ⟨2, 3, .order⟩, ⟨2, 4, .order⟩, ⟨1, 10, .hb⟩]
  mem_nodes := by decide
  functions := {0, 1, 2}
  getNodes f := if f = 0 then [0, 1, 2, 3, 4] else if f = 1 then [10] else [20]
  getFuncNode f := 10 * f
  getFunction n := if n < 10 then some 0 else if n < 20 then some 1 else some 2
  getFunction_funcNode := FunctionGraph.tens_getFunction
  getFunction_of_mem := by decide
  call_dst := by decide
  call_src := by decide
  call_unique := by decide

/-- The threads over `earlyReturnGraph`, each node on a line of its own, with the join of the
worker. -/
def earlyReturn (join : Option NodeId) : LocatedTree where
  ccpg := earlyReturnGraph.toCCPG
  threads := [0, 1, 2]
  thread t :=
    { parent := if t = 1 then some 0 else none
      forkNode := if t = 1 then 1 else if t = 2 then 20 else 0
      joinNode := if t = 1 then join else none
      nodes := if t = 0 then [0, 1, 2, 3, 4] else if t = 1 then [10] else if t = 2 then [20] else []
      isKernelEntry := t ≠ 1
      isReentrant := false
      entryName := "" }
  parent_lt t p h := by
    obtain ⟨rfl, h⟩ := Option.ite_none_right_eq_some.mp h
    obtain rfl := Option.some.inj h
    exact Nat.zero_lt_one
  forkNode_inj t u ht hu _ := by
    have hworker : ∀ v : ThreadId, (if v = 1 then some (0 : ThreadId) else none) ≠ none → v = 1 :=
      fun v hv => by_contra fun hne => hv (if_neg hne)
    rw [hworker t ht, hworker u hu]
  isKernelEntry_of_ne t u ht _ _ := by
    simpa using ht
  graph := earlyReturnGraph
  graph_eq := rfl
  nodeLoc n := ⟨"drv.c", n + 100⟩
  threadMainFunction t := t
  functions t := [t]
  mem_getNodes t n hn := by
    dsimp only at hn
    split_ifs at hn
    · exact ⟨0, by decide, hn⟩
    · exact ⟨1, by decide, hn⟩
    · exact ⟨2, by decide, hn⟩
    · cases hn
  forkNode_mem t p h := by
    obtain ⟨rfl, h⟩ := Option.ite_none_right_eq_some.mp h
    obtain rfl := Option.some.inj h
    exact List.mem_cons_of_mem 0 List.mem_cons_self

/-- The worker may run beside its parent. -/
theorem earlyReturn_concurrent (join : Option NodeId) :
    (earlyReturn join).mayThreadsRunConcurrently ⟨none, none⟩ 0 1 = true := by
  rfl

/-- The worker is below its parent. -/
theorem earlyReturn_below (join : Option NodeId) : Below (earlyReturn join).parent 1 0 :=
  Relation.TransGen.single rfl

/-- Without a join, all nodes behind the fork are found. -/
theorem earlyReturn_sound : (earlyReturn none).ParallelLocsSound ⟨none, none⟩ 0 1 :=
  (parallelLocsSound_iff (earlyReturn_concurrent none)).mpr
    ⟨fun _ => Or.inl ⟨rfl, rfl⟩, fun h => absurd h (not_below_of_below (earlyReturn_below none)),
      fun h => absurd (earlyReturn_below none) h⟩

/-- The worker can be alive when the entry returns early: the join was not executed. -/
theorem earlyReturn_live : (earlyReturn (some 4)).Live 0 1 3 := by
  refine (live_child_iff rfl).mpr ?_
  have hbranch : (earlyReturn (some 4)).program.Unjoined 1 2 :=
    .fork rfl ⟨⟨⟨1, 2, .order⟩, by decide, rfl, rfl⟩, by decide⟩
  exact .step hbranch (by decide) rfl ⟨⟨⟨2, 3, .order⟩, by decide, rfl, rfl⟩, by decide⟩

/-- No other node is at the line of the early return, and it does not reach the join. -/
theorem earlyReturn_not_contains : ((earlyReturn (some 4)).parentLocs 0 1).contains
    ((earlyReturn (some 4)).nodeLoc 3) ≠ true := by
  intro h
  obtain ⟨m, ⟨-, -, hjoin⟩, -, hsame⟩ := contains_parentLocs.mp h
  have hline : m + 100 = 3 + 100 := (NodeLoc.same_iff.mp hsame).1
  obtain rfl : m = 3 := add_right_cancel hline
  obtain ⟨-, hreach⟩ := hjoin 4 rfl
  rcases Relation.ReflTransGen.cases_head hreach with heq | ⟨n, ⟨⟨e, he, hsrc, -⟩, -⟩, -⟩
  · exact absurd heq (by decide)
  · revert e
    decide

/-- With a join at node 4, the node of the early return is missing, though the worker can be alive
there. The nodes of the two entries are missing altogether. -/
theorem earlyReturn_not_sound :
    ((earlyReturn (some 4)).mayThreadsRunConcurrently ⟨none, none⟩ 0 1 = true ∧
      (earlyReturn (some 4)).Live 0 1 3 ∧
      ¬(earlyReturn (some 4)).ParallelLocsSound ⟨none, none⟩ 0 1) ∧
    (earlyReturn (some 4)).mayThreadsRunConcurrently ⟨none, none⟩ 0 2 = true ∧
      ¬(earlyReturn (some 4)).ParallelLocsSound ⟨none, none⟩ 0 2 := by
  have hbelow := earlyReturn_below (some 4)
  have hconc := earlyReturn_concurrent (some 4)
  have hentries : (earlyReturn (some 4)).mayThreadsRunConcurrently ⟨none, none⟩ 0 2 = true := rfl
  refine ⟨⟨hconc, earlyReturn_live, fun h => ?_⟩, hentries, fun h => ?_⟩
  · -- The entry and its worker.
    have hlive := (h.left hbelow).1 3 (by decide) (by decide : (0 : ℤ) < 3 + 100) earlyReturn_live
    rw [computeParallelLocs_left hconc hbelow] at hlive
    exact earlyReturn_not_contains hlive
  · -- The two entries have no parents, so neither is above the other one.
    have hbelow2 : ¬Below (earlyReturn (some 4)).parent 2 0 := not_below_of_root rfl
    have hbelow0 : ¬Below (earlyReturn (some 4)).parent 0 2 := not_below_of_root rfl
    rcases (unrelated_iff hentries hbelow2 hbelow0).mp (h.unrelated hbelow2 hbelow0) with
      ⟨p, hp, -⟩ | ⟨hno, -⟩
    · cases hp
    · exact hno 1 (by decide) (by decide : (0 : ℤ) < 1 + 100)

end LocatedTree

end Lace
