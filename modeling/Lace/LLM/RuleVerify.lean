import Lace.CCPG.AliasChecker
import Lace.LLM.ParallelAnalysis
import Lace.PhaseB.ThreadPairs

/-!
# The verification of two-node rules

`verify` of the rules with two nodes. Three of them take for each node the first thread of the pair
that runs it, so a node that both threads run is always given to the first one. `DataRaceRule` asks
for no thread at all: it reports whatever its nodes are as soon as the two threads may run
concurrently, and never for two nodes of one thread.

## Main definitions

* `RuleVerifier`: what the verification reads;
* `RuleVerifier.verify`: `verify` of the four rules;
* `RuleVerifier.Assignable`: the nodes can be assigned to threads of the pair;
* `RuleVerifier.Grounded`: what a verdict promises.

## Main results

* `RuleVerifier.isReachableIntraThread_iff`: what the search inside a thread finds;
* `RuleVerifier.assignable_of_vulnerabilityExists`: the three rules report assignable nodes only;
* `RuleVerifier.grounded_iff`: when a verdict keeps the promise.
-/

namespace Lace.LLM

open Library

/-- `ThreadPair`: its threads. -/
structure ThreadPair where
  /-- `thread1`. -/
  thread1 : ThreadId
  /-- `thread2`. -/
  thread2 : ThreadId
  deriving DecidableEq, Repr

/-- The pair in the other order. -/
def ThreadPair.swap (pair : ThreadPair) : ThreadPair := ⟨pair.thread2, pair.thread1⟩

/-- The threads of a pair. -/
def ThreadPair.threads (pair : ThreadPair) : List ThreadId := [pair.thread1, pair.thread2]

/-- `StatefulBug`: what a verified rule is reported as. -/
structure StatefulBug where
  /-- The rule that is met. -/
  rule : Rule
  /-- The nodes with their texts. -/
  path : List (String × NodeId)
  /-- The pair of threads. -/
  pair : ThreadPair
  deriving DecidableEq, Repr

/-- The subclasses of `Rule` with two nodes. -/
inductive PairRule
  | dataRace | useAfterFree | doubleFree | nullPointerDereference
  deriving DecidableEq, Repr

/-- The role of the node that comes first. -/
def PairRule.firstRole : PairRule → String
  | .dataRace => "read_operation"
  | .useAfterFree => "free_operation"
  | .doubleFree => "first_free_operation"
  | .nullPointerDereference => "null_assignment_operation"

/-- The role of the other node. -/
def PairRule.secondRole : PairRule → String
  | .dataRace => "write_operation"
  | .useAfterFree => "use_operation"
  | .doubleFree => "second_free_operation"
  | .nullPointerDereference => "dereference_operation"

/-- What the verification of a rule reads. -/
structure RuleVerifier where
  /-- The thread creation tree, with the graph. -/
  tct : ThreadCreationTree
  /-- The entries of manual entry mode. -/
  manualEntry : Option (String → Bool)
  /-- The module, if the pointer analysis is the one of Phasar. -/
  pta : Option Module
  /-- The pointer operands of `getMemoryAccessesFromLocation`. -/
  pointerOperands : NodeId → List ValueId
  /-- `AliasChecker::isAlias`. -/
  isAlias : ValueId → ValueId → Bool

namespace RuleVerifier

variable (V : RuleVerifier) (pair : ThreadPair)

/-- `Thread::getNodes`. -/
def nodes (t : ThreadId) : List NodeId := (V.tct.thread t).nodes

/-- `mayThreadsRunConcurrently`: what the thread tree says about two threads, under the run's
filters. -/
def mayThreadsRunConcurrently (t u : ThreadId) : Bool :=
  V.tct.mayThreadsRunConcurrently (.ofRun V.manualEntry V.pta) t u

/-- The search of `is_reachable_intra_thread`. -/
def intraProblem (goal : NodeId) (t : ThreadId) : SearchProblem NodeId where
  next n := V.tct.ccpg.orderSuccs n
  goal n := n = goal
  keep n := n ∈ V.nodes t
  cap := none

/-- `is_reachable_intra_thread`: one node comes after another in a thread. -/
def isReachableIntraThread (start goal : NodeId) (t : ThreadId) : Bool :=
  if start = goal then true
  else if start ∉ V.nodes t ∨ goal ∉ V.nodes t then false
  else (V.intraProblem goal t).searchFrom (V.tct.ccpg.edges.length + 2) start

/-- The node that is bound to a role, if it is in the graph. -/
def nodeForRole (rule : Rule) (role : String) : Option NodeId :=
  V.tct.ccpg.getNodeByID (rule.getNodeForRole role)

/-- The thread that a node is given to: the first one of the pair that runs it. -/
def threadFor (n : NodeId) : Option ThreadId :=
  if n ∈ V.nodes pair.thread1 then some pair.thread1
  else if n ∈ V.nodes pair.thread2 then some pair.thread2
  else none

/-- `vulnerability_exists`: the second operation may follow the first: later in the thread, or in a
concurrent one. -/
def vulnerabilityExists (first second : NodeId) : Bool :=
  match V.threadFor pair first, V.threadFor pair second with
  | some s, some u =>
    if s = u then V.isReachableIntraThread first second s
    else V.mayThreadsRunConcurrently s u
  | _, _ => false

/-- `DataRaceRule::verify`: the threads of the nodes are not asked for. -/
def dataRaceVerify (rule : Rule) : Option StatefulBug :=
  match V.nodeForRole rule "read_operation", V.nodeForRole rule "write_operation" with
  | some readNode, some writeNode =>
    if V.mayThreadsRunConcurrently pair.thread1 pair.thread2 then
      some ⟨rule, [("[READ] Operation", readNode), ("[WRITE - Concurrent] Operation", writeNode)],
        pair⟩
    else none
  | _, _ => none

/-- The common body of two rules, with the roles and the texts of the nodes. -/
def firstMatchVerify (role1 role2 text1 text2 : String) (rule : Rule) : Option StatefulBug :=
  match V.nodeForRole rule role1, V.nodeForRole rule role2 with
  | some first, some second =>
    if V.vulnerabilityExists pair first second then
      some ⟨rule, [(text1, first), (text2, second)], pair⟩
    else none
  | _, _ => none

/-- `UseAfterFreeRule::verify`: a use that may follow the free. -/
def useAfterFreeVerify (rule : Rule) : Option StatefulBug :=
  V.firstMatchVerify pair "free_operation" "use_operation" "[FREE] Operation" "[USE] Operation" rule

/-- `DoubleFreeRule::verify`: a second free that may follow the first. -/
def doubleFreeVerify (rule : Rule) : Option StatefulBug :=
  V.firstMatchVerify pair "first_free_operation" "second_free_operation" "[FIRST FREE] Operation"
    "[SECOND FREE] Operation" rule

/-- Some access at the first node aliases one at the second node. -/
def anyAlias (first second : NodeId) : Bool :=
  (V.pointerOperands first).any fun v => (V.pointerOperands second).any fun w => V.isAlias v w

/-- `NullPointerDereferenceRule::verify`: a dereference that may follow the assignment of null. -/
def nullPointerDereferenceVerify (rule : Rule) : Option StatefulBug :=
  match V.nodeForRole rule "null_assignment_operation",
      V.nodeForRole rule "dereference_operation" with
  | some nullAssignment, some dereference =>
    if V.vulnerabilityExists pair nullAssignment dereference then
      -- Only here the accesses of the two nodes have to alias.
      if V.anyAlias nullAssignment dereference then
        some ⟨rule, [("[NULL ASSIGNMENT] Operation", nullAssignment),
          ("[DEREFERENCE] Operation", dereference)], pair⟩
      else none
    else none
  | _, _ => none

/-- `verify` of the four rules. -/
def verify : PairRule → Rule → Option StatefulBug
  | .dataRace => V.dataRaceVerify pair
  | .useAfterFree => V.useAfterFreeVerify pair
  | .doubleFree => V.doubleFreeVerify pair
  | .nullPointerDereference => V.nullPointerDereferenceVerify pair

/-! ### What a verdict promises -/

/-- One step along the control flow to a node of the thread. -/
def IntraStep (t : ThreadId) (m n : NodeId) : Prop := V.tct.ccpg.OrderStep m n ∧ n ∈ V.nodes t

/-- The thread runs both nodes, and comes from the first one to the second one. -/
structure RunsInOrder (a b : NodeId) (t : ThreadId) : Prop where
  /-- It runs the first node. -/
  first : a ∈ V.nodes t
  /-- It runs the second node. -/
  second : b ∈ V.nodes t
  /-- The control flow leads from one to the other. -/
  reaches : Relation.ReflTransGen (V.IntraStep t) a b

/-- Each node can be given to a thread of the pair that runs it, such that the two threads differ
and may run concurrently, or are one thread that comes from the first node to the second one. -/
def Assignable (a b : NodeId) : Prop :=
  ∃ s ∈ pair.threads, ∃ u ∈ pair.threads, a ∈ V.nodes s ∧ b ∈ V.nodes u ∧
    (s ≠ u ∧ V.mayThreadsRunConcurrently s u = true ∨ s = u ∧ V.RunsInOrder a b s)

/-- The two nodes of the rule. -/
def Nodes (r : PairRule) (rule : Rule) (a b : NodeId) : Prop :=
  V.nodeForRole rule r.firstRole = some a ∧ V.nodeForRole rule r.secondRole = some b

/-- The alias condition of the null rule; the others have none. -/
def AliasCondition : PairRule → NodeId → NodeId → Prop
  | .nullPointerDereference, a, b => V.anyAlias a b = true
  | _, _, _ => True

/-- What a verdict promises: a report has assignable nodes, assignable nodes are reported up to the
alias condition, and the order of the pair does not matter. -/
structure Grounded (r : PairRule) (rule : Rule) : Prop where
  /-- A report is about assignable nodes. -/
  sound : (V.verify pair r rule).isSome → ∃ a b, V.Nodes r rule a b ∧ V.Assignable pair a b
  /-- Assignable nodes are reported. -/
  complete : ∀ a b, V.Nodes r rule a b → V.Assignable pair a b → V.AliasCondition r a b →
    (V.verify pair r rule).isSome
  /-- The pair may be given in either order. -/
  oriented : (V.verify pair r rule).isSome = (V.verify pair.swap r rule).isSome

/-- Both threads of the pair run the node. -/
def Shared (n : NodeId) : Prop := n ∈ V.nodes pair.thread1 ∧ n ∈ V.nodes pair.thread2

/-- One thread runs the first node and the other one the second node. -/
def Across (a b : NodeId) : Prop :=
  a ∈ V.nodes pair.thread1 ∧ b ∈ V.nodes pair.thread2 ∨
    a ∈ V.nodes pair.thread2 ∧ b ∈ V.nodes pair.thread1

/-- Some thread of the pair comes from the first node to the second one. -/
def Within (a b : NodeId) : Prop := ∃ t ∈ pair.threads, V.RunsInOrder a b t

/-- The condition of the data race rule: where the threads may run concurrently they are two and run
one node each, or one of them runs both in order; and where one runs both in order the two may run
concurrently. -/
def RaceNodes (a b : NodeId) : Prop :=
  (V.mayThreadsRunConcurrently pair.thread1 pair.thread2 = true →
    pair.thread1 ≠ pair.thread2 ∧ V.Across pair a b ∨ V.Within pair a b) ∧
  (V.Within pair a b → V.mayThreadsRunConcurrently pair.thread1 pair.thread2 = true)

/-- The condition of the other rules on nodes that are shared: every thread that runs both nodes
runs them in order, and unless both are shared the threads may run concurrently. -/
def SharedAgree (a b : NodeId) : Prop :=
  (∀ t ∈ pair.threads, a ∈ V.nodes t → b ∈ V.nodes t → V.RunsInOrder a b t) ∧
    (V.Shared pair a ∧ V.Shared pair b ∨
      V.mayThreadsRunConcurrently pair.thread1 pair.thread2 = true)

/-- The condition under which a verdict keeps the promise. -/
def Unambiguous : PairRule → NodeId → NodeId → Prop
  | .dataRace, a, b => V.RaceNodes pair a b
  | r, a, b => V.AliasCondition r a b → V.Assignable pair a b → pair.thread1 ≠ pair.thread2 →
    V.Shared pair a ∨ V.Shared pair b → V.SharedAgree pair a b

variable {V pair} {r : PairRule} {rule : Rule} {a b : NodeId} {t u : ThreadId}

/-! ### The searches -/

/-- For two nodes of a thread the search follows the control flow inside the thread. -/
theorem isReachableIntraThread_iff (ha : a ∈ V.nodes t) (hb : b ∈ V.nodes t) :
    V.isReachableIntraThread a b t = true ↔ V.RunsInOrder a b t := by
  have hrun : V.RunsInOrder a b t ↔ Relation.ReflTransGen (V.IntraStep t) a b :=
    ⟨RunsInOrder.reaches, fun h => ⟨ha, hb, h⟩⟩
  rw [hrun, isReachableIntraThread]
  by_cases hab : a = b
  · subst hab
    simp [Relation.ReflTransGen.refl]
  rw [if_neg hab, if_neg (by simp [ha, hb])]
  -- The search enters a node exactly along a step inside the thread.
  have hentered : (V.intraProblem b t).Entered = V.IntraStep t := by
    ext m n
    simp [SearchProblem.Entered, intraProblem, IntraStep]
  have hU : ∀ m, ∀ n ∈ (V.intraProblem b t).next m, (V.intraProblem b t).keep n = true →
      n ∈ (V.tct.ccpg.edges.map CCPGEdge.dst).toFinset := by
    intro m n hn _
    have hstep : V.tct.ccpg.OrderStep m n := (CCPG.mem_orderSuccs _).mp hn
    exact List.mem_toFinset.mpr (List.mem_map.mpr ⟨_, hstep, rfl⟩)
  have hcard : (V.tct.ccpg.edges.map CCPGEdge.dst).toFinset.card ≤ V.tct.ccpg.edges.length :=
    card_toFinset_map_le _ _
  rw [SearchProblem.search_uncapped_iff rfl _ hU (by omega), hentered]
  constructor
  · rintro ⟨m, n, hm, hn, hgoal⟩
    obtain rfl : n = b := by simpa [intraProblem] using hgoal
    exact hm.tail ⟨(CCPG.mem_orderSuccs _).mp hn, hb⟩
  · intro h
    rcases Relation.ReflTransGen.cases_tail h with heq | ⟨m, hm, hstep⟩
    · -- The two nodes differ, so the way has a last step.
      exact absurd heq.symm hab
    · exact ⟨m, b, hm, (CCPG.mem_orderSuccs _).mpr hstep.1, by simp [intraProblem]⟩

/-- The order of the threads does not matter to the parallelism test. -/
theorem mayThreadsRunConcurrently_comm (t u : ThreadId) :
    V.mayThreadsRunConcurrently t u = V.mayThreadsRunConcurrently u t :=
  V.tct.mayThreadsRunConcurrently_comm (EntryFilters.ofRun_symmetric _ _) t u

/-! ### What is reported -/

/-- The thread that a node is given to is one of the pair and runs the node. -/
theorem mem_of_threadFor {n : NodeId} (h : V.threadFor pair n = some t) :
    t ∈ pair.threads ∧ n ∈ V.nodes t := by
  unfold threadFor at h
  split_ifs at h with h1 h2
  · cases h
    exact ⟨by simp [ThreadPair.threads], h1⟩
  · cases h
    exact ⟨by simp [ThreadPair.threads], h2⟩

theorem vulnerabilityExists_iff : V.vulnerabilityExists pair a b = true ↔
    ∃ s u, V.threadFor pair a = some s ∧ V.threadFor pair b = some u ∧
      (s ≠ u ∧ V.mayThreadsRunConcurrently s u = true ∨ s = u ∧ V.RunsInOrder a b s) := by
  unfold vulnerabilityExists
  cases hs : V.threadFor pair a with
  | none => simp
  | some s =>
    cases hu : V.threadFor pair b with
    | none => simp
    | some u =>
      by_cases hsu : s = u
      · subst hsu
        simp [isReachableIntraThread_iff (mem_of_threadFor hs).2 (mem_of_threadFor hu).2]
      · simp [hsu]

/-- The nodes of a vulnerability can be assigned. -/
theorem assignable_of_vulnerabilityExists (h : V.vulnerabilityExists pair a b = true) :
    V.Assignable pair a b := by
  obtain ⟨s, u, hs, hu, hsu⟩ := vulnerabilityExists_iff.mp h
  obtain ⟨hsmem, ha⟩ := mem_of_threadFor hs
  obtain ⟨humem, hb⟩ := mem_of_threadFor hu
  exact ⟨s, hsmem, u, humem, ha, hb, hsu⟩

/-- An assignment gives the nodes to the two threads or to one of them. -/
theorem assignable_iff : V.Assignable pair a b ↔
    (pair.thread1 ≠ pair.thread2 ∧
      V.mayThreadsRunConcurrently pair.thread1 pair.thread2 = true ∧ V.Across pair a b) ∨
    V.Within pair a b := by
  constructor
  · rintro ⟨s, hs, u, hu, ha, hb, ⟨hsu, hconc⟩ | ⟨rfl, hrun⟩⟩
    · simp only [ThreadPair.threads, List.mem_cons, List.not_mem_nil, or_false] at hs hu
      left
      rcases hs with rfl | rfl <;> rcases hu with rfl | rfl
      · exact absurd rfl hsu
      · exact ⟨hsu, hconc, Or.inl ⟨ha, hb⟩⟩
      · exact ⟨hsu.symm, mayThreadsRunConcurrently_comm _ _ ▸ hconc, Or.inr ⟨ha, hb⟩⟩
      · exact absurd rfl hsu
    · exact Or.inr ⟨s, hs, hrun⟩
  · rintro (⟨hne, hconc, ⟨ha, hb⟩ | ⟨ha, hb⟩⟩ | ⟨t, ht, hrun⟩)
    · exact ⟨pair.thread1, by simp [ThreadPair.threads], pair.thread2,
        by simp [ThreadPair.threads], ha, hb, Or.inl ⟨hne, hconc⟩⟩
    · exact ⟨pair.thread2, by simp [ThreadPair.threads], pair.thread1,
        by simp [ThreadPair.threads], ha, hb,
        Or.inl ⟨hne.symm, mayThreadsRunConcurrently_comm _ _ ▸ hconc⟩⟩
    · exact ⟨t, ht, t, ht, hrun.first, hrun.second, Or.inr ⟨rfl, hrun⟩⟩

theorem assignable_swap : V.Assignable pair.swap a b ↔ V.Assignable pair a b := by
  have hmem : ∀ t, t ∈ pair.swap.threads ↔ t ∈ pair.threads := by
    intro t
    simp only [ThreadPair.threads, ThreadPair.swap, List.mem_cons, List.not_mem_nil, or_false]
    exact or_comm
  simp only [Assignable, hmem]

/-- Under this a rule reports two nodes. -/
def Reports (V : RuleVerifier) (pair : ThreadPair) : PairRule → NodeId → NodeId → Prop
  | .dataRace, _, _ => V.mayThreadsRunConcurrently pair.thread1 pair.thread2 = true
  | r, a, b => V.vulnerabilityExists pair a b = true ∧ V.AliasCondition r a b

theorem isSome_firstMatchVerify {role1 role2 text1 text2 : String} :
    (V.firstMatchVerify pair role1 role2 text1 text2 rule).isSome ↔
      ∃ a b, (V.nodeForRole rule role1 = some a ∧ V.nodeForRole rule role2 = some b) ∧
        V.vulnerabilityExists pair a b = true := by
  unfold firstMatchVerify
  cases V.nodeForRole rule role1 <;> cases V.nodeForRole rule role2 <;> simp

/-- A rule reports a bug exactly if it finds its nodes and reports them. -/
theorem isSome_verify : (V.verify pair r rule).isSome ↔
    ∃ a b, V.Nodes r rule a b ∧ V.Reports pair r a b := by
  cases r with
  | dataRace =>
    simp only [verify, dataRaceVerify, Nodes, Reports, PairRule.firstRole, PairRule.secondRole]
    cases V.nodeForRole rule "read_operation" <;>
      cases V.nodeForRole rule "write_operation" <;> simp
  -- The two rules about frees take the first pair of nodes that verifies.
  | useAfterFree =>
    simp only [Reports, AliasCondition, and_true]
    exact isSome_firstMatchVerify
  | doubleFree =>
    simp only [Reports, AliasCondition, and_true]
    exact isSome_firstMatchVerify
  | nullPointerDereference =>
    simp only [verify, nullPointerDereferenceVerify, Nodes, Reports, PairRule.firstRole,
      PairRule.secondRole, AliasCondition]
    cases V.nodeForRole rule "null_assignment_operation" with
    | none => simp
    | some a =>
      cases V.nodeForRole rule "dereference_operation" with
      | none => simp
      | some b =>
        by_cases hvul : V.vulnerabilityExists pair a b = true <;> simp [hvul]

theorem Nodes.unique {a' b' : NodeId} (h : V.Nodes r rule a b) (h' : V.Nodes r rule a' b') :
    a' = a ∧ b' = b :=
  ⟨Option.some.inj (h'.1.symm.trans h.1), Option.some.inj (h'.2.symm.trans h.2)⟩

/-- With the nodes at hand the promise is one about the reports. -/
theorem grounded_iff_of_nodes (h : V.Nodes r rule a b) : V.Grounded pair r rule ↔
    (V.Reports pair r a b → V.Assignable pair a b) ∧
      (V.Assignable pair a b → V.AliasCondition r a b → V.Reports pair r a b) ∧
      (V.Reports pair r a b ↔ V.Reports pair.swap r a b) := by
  -- In both orders of the pair the rule looks at the same nodes.
  have hsome : ∀ pair, (V.verify pair r rule).isSome ↔ V.Reports pair r a b := by
    intro pair
    rw [isSome_verify]
    constructor
    · rintro ⟨a', b', hnodes, hrep⟩
      obtain ⟨rfl, rfl⟩ := h.unique hnodes
      exact hrep
    · exact fun hrep => ⟨a, b, h, hrep⟩
  constructor
  · rintro ⟨hsound, hcomplete, horiented⟩
    refine ⟨fun hrep => ?_, fun hassign halias => ?_, ?_⟩
    · obtain ⟨a', b', hnodes, hassign⟩ := hsound ((hsome pair).mpr hrep)
      obtain ⟨rfl, rfl⟩ := h.unique hnodes
      exact hassign
    · exact (hsome pair).mp (hcomplete a b h hassign halias)
    · rw [← hsome pair, ← hsome pair.swap, horiented]
  · rintro ⟨hsound, hcomplete, horiented⟩
    refine ⟨fun hrep => ⟨a, b, h, hsound ((hsome pair).mp hrep)⟩, ?_, ?_⟩
    · intro a' b' hnodes hassign halias
      obtain ⟨rfl, rfl⟩ := h.unique hnodes
      exact (hsome pair).mpr (hcomplete hassign halias)
    · rw [Bool.eq_iff_iff, hsome pair, hsome pair.swap, horiented]

/-! ### The data race rule -/

theorem raceNodes_iff : V.RaceNodes pair a b ↔
    (V.Reports pair .dataRace a b → V.Assignable pair a b) ∧
      (V.Assignable pair a b → V.Reports pair .dataRace a b) := by
  rw [assignable_iff, RaceNodes, Reports]
  tauto

/-! ### The rules that take the first match -/

/-- A node that the two threads do not share is given to the thread that runs it. -/
theorem threadFor_of_mem {n : NodeId} (hn : pair.thread1 = pair.thread2 ∨ ¬V.Shared pair n)
    (ht : t ∈ pair.threads) (hmem : n ∈ V.nodes t) : V.threadFor pair n = some t := by
  simp only [ThreadPair.threads, List.mem_cons, List.not_mem_nil, or_false] at ht
  unfold threadFor
  rcases ht with rfl | rfl
  · rw [if_pos hmem]
  · by_cases h1 : n ∈ V.nodes pair.thread1
    · -- In both threads: then the two are one.
      rcases hn with heq | hshared
      · rw [if_pos h1, heq]
      · exact absurd ⟨h1, hmem⟩ hshared
    · rw [if_neg h1, if_pos hmem]

/-- Nodes that are not shared are reported whenever they are assignable. -/
theorem vulnerabilityExists_of_assignable
    (ha : pair.thread1 = pair.thread2 ∨ ¬V.Shared pair a)
    (hb : pair.thread1 = pair.thread2 ∨ ¬V.Shared pair b) (h : V.Assignable pair a b) :
    V.vulnerabilityExists pair a b = true := by
  obtain ⟨s, hs, u, hu, has, hbu, hsu⟩ := h
  exact vulnerabilityExists_iff.mpr ⟨s, u, threadFor_of_mem ha hs has, threadFor_of_mem hb hu hbu,
    hsu⟩

/-- Assignable nodes one of which is shared are reported in both orders of the pair exactly if the
threads agree about them. -/
theorem sharedAgree_iff (hne : pair.thread1 ≠ pair.thread2) (h : V.Assignable pair a b)
    (hshared : V.Shared pair a ∨ V.Shared pair b) :
    V.SharedAgree pair a b ↔ V.vulnerabilityExists pair a b = true ∧
      V.vulnerabilityExists pair.swap a b = true := by
  have ha : a ∈ V.nodes pair.thread1 ∨ a ∈ V.nodes pair.thread2 := by
    obtain ⟨s, hs, -, -, has, -⟩ := h
    simp only [ThreadPair.threads, List.mem_cons, List.not_mem_nil, or_false] at hs
    rcases hs with rfl | rfl
    · exact Or.inl has
    · exact Or.inr has
  have hb : b ∈ V.nodes pair.thread1 ∨ b ∈ V.nodes pair.thread2 := by
    obtain ⟨-, -, u, hu, -, hbu, -⟩ := h
    simp only [ThreadPair.threads, List.mem_cons, List.not_mem_nil, or_false] at hu
    rcases hu with rfl | rfl
    · exact Or.inl hbu
    · exact Or.inr hbu
  have hcomm := V.mayThreadsRunConcurrently_comm pair.thread2 pair.thread1
  unfold Shared at hshared
  simp only [SharedAgree, Shared, vulnerabilityExists_iff, threadFor, ThreadPair.swap,
    ThreadPair.threads, List.mem_cons, List.not_mem_nil, or_false, forall_eq_or_imp, forall_eq]
  -- Which threads run which node decides what the two orders ask for.
  by_cases ha1 : a ∈ V.nodes pair.thread1 <;> by_cases ha2 : a ∈ V.nodes pair.thread2 <;>
    by_cases hb1 : b ∈ V.nodes pair.thread1 <;> by_cases hb2 : b ∈ V.nodes pair.thread2 <;>
    simp_all [hne.symm, and_comm]

/-- The rules that take the first match keep the promise exactly if the threads agree about shared
nodes. -/
theorem firstMatch_iff {aliasing : Prop} : ((V.vulnerabilityExists pair a b = true ∧ aliasing →
      V.Assignable pair a b) ∧
    (V.Assignable pair a b → aliasing → V.vulnerabilityExists pair a b = true ∧ aliasing) ∧
    (V.vulnerabilityExists pair a b = true ∧ aliasing ↔
      V.vulnerabilityExists pair.swap a b = true ∧ aliasing)) ↔
    (aliasing → V.Assignable pair a b → pair.thread1 ≠ pair.thread2 →
      V.Shared pair a ∨ V.Shared pair b → V.SharedAgree pair a b) := by
  have hswap : V.vulnerabilityExists pair.swap a b = true → V.Assignable pair a b := fun h =>
    assignable_swap.mp (assignable_of_vulnerabilityExists h)
  constructor
  · rintro ⟨-, hcomplete, horiented⟩ halias hassign hne hshared
    have hrep := hcomplete hassign halias
    exact (sharedAgree_iff hne hassign hshared).mpr ⟨hrep.1, (horiented.mp hrep).1⟩
  · intro hagree
    -- Whether assignable nodes are reported in both orders depends on the shared ones only.
    have hboth : V.Assignable pair a b → aliasing → V.vulnerabilityExists pair a b = true ∧
        V.vulnerabilityExists pair.swap a b = true := by
      intro hassign halias
      -- With one thread twice there is nothing to choose.
      by_cases hne : pair.thread1 = pair.thread2
      · exact ⟨vulnerabilityExists_of_assignable (Or.inl hne) (Or.inl hne) hassign,
          vulnerabilityExists_of_assignable (Or.inl hne.symm) (Or.inl hne.symm)
            (assignable_swap.mpr hassign)⟩
      by_cases hshared : V.Shared pair a ∨ V.Shared pair b
      · exact (sharedAgree_iff hne hassign hshared).mp (hagree halias hassign hne hshared)
      · rw [not_or] at hshared
        exact ⟨vulnerabilityExists_of_assignable (Or.inr hshared.1) (Or.inr hshared.2) hassign,
          vulnerabilityExists_of_assignable (Or.inr fun h => hshared.1 h.symm)
            (Or.inr fun h => hshared.2 h.symm) (assignable_swap.mpr hassign)⟩
    refine ⟨fun h => assignable_of_vulnerabilityExists h.1, fun hassign halias =>
      ⟨(hboth hassign halias).1, halias⟩, ?_⟩
    constructor
    · rintro ⟨hvul, halias⟩
      exact ⟨(hboth (assignable_of_vulnerabilityExists hvul) halias).2, halias⟩
    · rintro ⟨hvul, halias⟩
      exact ⟨(hboth (hswap hvul) halias).1, halias⟩

/-- A verdict keeps its promise exactly if its nodes are unambiguous for the pair. -/
theorem grounded_iff (V : RuleVerifier) (pair : ThreadPair) (r : PairRule) (rule : Rule) :
    V.Grounded pair r rule ↔ ∀ a b, V.Nodes r rule a b → V.Unambiguous pair r a b := by
  by_cases hnodes : ∃ a b, V.Nodes r rule a b
  · obtain ⟨a, b, h⟩ := hnodes
    -- A rule has one pair of nodes.
    have hall : (∀ a b, V.Nodes r rule a b → V.Unambiguous pair r a b) ↔
        V.Unambiguous pair r a b := by
      refine ⟨fun hall => hall a b h, fun hab a' b' h' => ?_⟩
      obtain ⟨rfl, rfl⟩ := h.unique h'
      exact hab
    rw [hall, grounded_iff_of_nodes h]
    cases r with
    | dataRace =>
      -- The parallelism test is symmetric, so this rule has no orientation.
      have hcomm : V.Reports pair .dataRace a b ↔ V.Reports pair.swap .dataRace a b := by
        simp only [Reports, ThreadPair.swap]
        rw [mayThreadsRunConcurrently_comm]
      rw [Unambiguous, raceNodes_iff]
      simp [AliasCondition, ← hcomm]
    | useAfterFree => exact firstMatch_iff
    | doubleFree => exact firstMatch_iff
    | nullPointerDereference => exact firstMatch_iff
  · -- Without its nodes a rule reports nothing, and there is nothing to report.
    have hnone : ∀ pair, (V.verify pair r rule).isSome = false := by
      intro pair
      rw [Bool.eq_false_iff, ne_eq, isSome_verify]
      rintro ⟨a, b, h, -⟩
      exact hnodes ⟨a, b, h⟩
    constructor
    · intro _ a b h
      exact absurd ⟨a, b, h⟩ hnodes
    · intro _
      refine ⟨fun h => ?_, fun a b h => absurd ⟨a, b, h⟩ hnodes, ?_⟩
      · rw [hnone] at h
        cases h
      · rw [hnone, hnone]

/-! ### A helper that both threads run -/

/-- Two kernel entries that call one helper, which frees at node 10. The first one has used the
object at node 20 before it calls the helper; node 30 belongs to neither. -/
def sharedHelper : RuleVerifier where
  tct :=
    { ccpg :=
        { nodes := [10, 20, 30]
          type := fun _ => .assignment
          isCallSite := fun _ => false
          edges := [⟨20, 10, .order⟩]
          mem_nodes := by decide }
      threads := [0, 1]
      thread := fun t =>
        { parent := none
          forkNode := if t = 0 then 20 else 10
          joinNode := none
          nodes := if t = 0 then [20, 10] else [10]
          isKernelEntry := true
          isReentrant := false
          entryName := "" }
      parent_lt := nofun
      forkNode_inj := fun _ _ h => absurd rfl h
      isKernelEntry_of_ne := fun _ _ _ _ _ => rfl }
  manualEntry := none
  pta := none
  pointerOperands _ := []
  isAlias _ _ := false

/-- The free in the helper against the use in the first entry. -/
def helperFree : Rule where
  pattern := .useAfterFree
  ruleId := "R1"
  sharedObjectType := "struct conn"
  summary := "the helper frees what the entry uses"
  nominatedNodes := [("free_operation", 10), ("use_operation", 20)]

/-- A read and a write that neither thread runs. -/
def strayRace : Rule where
  pattern := .dataRace
  ruleId := "R2"
  sharedObjectType := "struct conn"
  summary := "a race elsewhere"
  nominatedNodes := [("read_operation", 30), ("write_operation", 30)]

/-- The free is reported for one order of the pair only, and the race is reported although neither
thread runs its nodes. -/
theorem sharedHelper_not_grounded :
    sharedHelper.verify ⟨0, 1⟩ .useAfterFree helperFree = none ∧
      (sharedHelper.verify ⟨1, 0⟩ .useAfterFree helperFree).isSome ∧
      ¬sharedHelper.Grounded ⟨0, 1⟩ .useAfterFree helperFree ∧
      (sharedHelper.verify ⟨0, 1⟩ .dataRace strayRace).isSome ∧
      ¬sharedHelper.Grounded ⟨0, 1⟩ .dataRace strayRace := by
  have hnone : sharedHelper.verify ⟨0, 1⟩ .useAfterFree helperFree = none := by decide +kernel
  have hsome : (sharedHelper.verify ⟨1, 0⟩ .useAfterFree helperFree).isSome := by decide +kernel
  have hrace : (sharedHelper.verify ⟨0, 1⟩ .dataRace strayRace).isSome := by decide +kernel
  refine ⟨hnone, hsome, fun h => ?_, hrace, fun h => ?_⟩
  · -- The two orders of the pair are answered differently.
    have horiented := h.oriented
    rw [hnone, show (ThreadPair.mk 0 1).swap = ⟨1, 0⟩ from rfl, hsome] at horiented
    cases horiented
  · -- The role is bound to node 30, which neither thread runs.
    obtain ⟨a, b, hnodes, s, hs, -, -, ha, -⟩ := h.sound hrace
    have ha30 : a = 30 := by
      have hnode : sharedHelper.nodeForRole strayRace "read_operation" = some 30 := by
        decide +kernel
      exact Option.some.inj (hnodes.1.symm.trans hnode)
    subst ha30
    have hnot : ∀ t ∈ (ThreadPair.mk 0 1).threads, (30 : NodeId) ∉ sharedHelper.nodes t := by
      decide
    exact hnot s hs ha

end RuleVerifier

end Lace.LLM
