import Lace.LockSet.Simulation

/-!
# Runs of the lockset analysis

`LSAnalysis::build` from its start to its end, over all functions. As long as no lock is given
back twice, a queued node holds what the analysis arrives with, and a processed node holds what
is held after it and after every predecessor that was processed no earlier. When a lock is given
back for the second time its lock object has recorded a release already, so it stays in the
lockset of the node that releases it.

## Main definitions

* `LockProgram.Collects`: what the lockset of a processed node is made of;
* `LockProgram.Inv`, `LockProgram.KeepsReleased`: the two states a run can be in.

## Main results

* `Outcome.processNode`, `Outcome.loop`: one turn of the loop, and all turns for one function;
* `outcome_build`: the whole analysis.
-/

namespace Lace.LockProgram

open Library
open Library.Traversal (before)

variable {P : LockProgram} {A : HeapLayout} {f : CCPGFunction} {s : WorkState}
  {vis old work : List NodeId} {locks : List Lock} {sets : NodeId → List ℕ} {m n : NodeId}

/-- `x` is held after `n`, or after a predecessor that was processed no earlier than `n`. -/
def Collects (P : LockProgram) (A : HeapLayout) (vis : List NodeId) (n x : NodeId) : Prop :=
  ∃ q ∈ vis, (q = n ∨ P.ccpg.OrderStep q n ∧ q ∉ before vis n) ∧ x ∈ P.heldAfter A vis q

/-- The state of a run that gave back every lock once. -/
structure Inv (P : LockProgram) (A : HeapLayout) (vis work : List NodeId) (locks : List Lock)
    (sets : NodeId → List ℕ) : Prop where
  once : P.GivenOnce A vis
  locksAt : P.LocksAt A vis locks
  queued : ∀ n ∈ work, sets n = (P.arrival A vis n).map (P.lockNo vis)
  settled : ∀ n ∈ vis, ∀ i, i ∈ sets n ↔ ∃ x, P.Collects A vis n x ∧ P.lockNo vis x = i
  nodup : ∀ n ∈ vis, (sets n).Nodup

/-- The lockset of a processed node has a lock that the node releases. -/
def KeepsReleased (P : LockProgram) (vis : List NodeId) (locks : List Lock)
    (sets : NodeId → List ℕ) : Prop :=
  ∃ n ∈ vis, ∃ i ∈ sets n, ∃ a r, locks[i]?.map Lock.acquire = some a ∧
    P.op n = some (.release r) ∧ P.ir.isLockAlias a r = true

/-- A run gave back every lock once, or a lock stays where it is released. -/
def Outcome (P : LockProgram) (A : HeapLayout) (vis work : List NodeId) (locks : List Lock)
    (sets : NodeId → List ℕ) : Prop :=
  P.Inv A vis work locks sets ∨ ¬P.GivenOnce A vis ∧ P.KeepsReleased vis locks sets

/-- The state belongs to function `f`, and `old` are the nodes of other functions that were
processed before. -/
structure InFunction (P : LockProgram) (f : CCPGFunction) (old : List NodeId) (s : WorkState) :
    Prop where
  traversal : Traversal.Inv P.ccpg.orderSuccs f.funcNode (s.visited, s.worklist)
  outside : ∀ n ∈ old, ¬P.Inside f n
  nodup : old.Nodup

/-! ### The traversal behind the loop -/

/-- Passing locks on puts the unvisited targets into the worklist. -/
theorem foldl_passTo_worklist {dsts : List NodeId} :
    (dsts.foldl (passTo A m) s).worklist =
      (dsts.filter (· ∉ s.visited)).foldl (fun work n => work.insert n) s.worklist := by
  induction dsts generalizing s with
  | nil => rfl
  | cons d dsts ih =>
      rw [List.foldl_cons, ih, passTo_visited, List.filter_cons]
      unfold passTo
      by_cases hd : d ∈ s.visited <;> simp [hd]

/-- Visited nodes and worklist do not depend on the locks. -/
theorem processNode_traversal : ((P.processNode A s m).visited, (P.processNode A s m).worklist) =
    Traversal.turn P.ccpg.orderSuccs (s.visited, s.worklist) m := by
  rw [processNode, foldl_passTo_visited, foldl_passTo_worklist]
  rfl

/-- The loop visits nodes and keeps its worklist as the traversal of the library does. -/
theorem loop_traversal (fuel : ℕ) :
    ((P.loop A fuel s).visited, (P.loop A fuel s).worklist) =
      Traversal.run P.ccpg.orderSuccs A.nodeAddr fuel (s.visited, s.worklist) := by
  induction fuel generalizing s with
  | zero => rfl
  | succ fuel ih =>
      unfold loop Traversal.run
      cases hmin : s.worklist.argmin A.nodeAddr with
      | none => simp
      | some m => simp [ih, processNode_traversal]

namespace InFunction

variable (hs : P.InFunction f old s)

include hs

/-- A queued node was not processed, neither in this function nor in another one. -/
theorem nodup_cons (hm : m ∈ s.worklist) : (m :: (s.visited ++ old)).Nodup := by
  have hnot : ∀ n, n ∈ s.visited ∨ n ∈ s.worklist → n ∉ old := fun n hn hold =>
    hs.outside n hold (inside_iff.mp (hs.traversal.reachable n hn))
  refine List.nodup_cons.mpr ⟨?_, List.nodup_append.mpr ⟨hs.traversal.visited_nodup, hs.nodup, ?_⟩⟩
  · rw [List.mem_append, not_or]
    exact ⟨hs.traversal.unvisited m hm, hnot m (Or.inr hm)⟩
  · rintro n hn n' hn' rfl
    exact hnot n (Or.inl hn) hn'

/-- The successors of a queued node belong to the function. -/
theorem succ_notMem_old (hm : m ∈ s.worklist) (hn : n ∈ P.ccpg.orderSuccs m) : n ∉ old :=
  fun hold => hs.outside n hold
    ((inside_iff.mp (hs.traversal.reachable m (Or.inr hm))).step (P.ccpg.mem_orderSuccs.mp hn))

/-- A round stays in the function it is in. -/
theorem processNode (hm : m ∈ s.worklist) : P.InFunction f old (P.processNode A s m) where
  traversal := by
    rw [processNode_traversal]
    exact hs.traversal.turn hm
  outside := hs.outside
  nodup := hs.nodup

end InFunction

/-! ### One turn -/

/-- Each round visits its node. -/
@[simp]
theorem processNode_visited : (P.processNode A s m).visited = m :: s.visited :=
  foldl_passTo_visited

/-- The locks known after a round are those known before and what the node acquires. -/
theorem processNode_locks : (P.processNode A s m).locks =
    ((P.ops m).foldl P.applyOp (s.locks, s.nodeLockSets m)).1 :=
  foldl_passTo_locks

/-- The lock set of the node is the outcome of its operations. -/
theorem execNode_sets_self : (P.execNode s m).nodeLockSets m =
    ((P.ops m).foldl P.applyOp (s.locks, s.nodeLockSets m)).2 :=
  Function.update_self _ _ _

/-- The operations of a node leave the other lock sets as they are. -/
theorem execNode_sets_of_ne (h : n ≠ m) : (P.execNode s m).nodeLockSets n = s.nodeLockSets n :=
  Function.update_of_ne h _ _

/-- A lockset of a processed node grows by what the new node leaves, when it is a successor. -/
theorem mem_processNode_sets (hs : P.InFunction f old s) (hm : m ∈ s.worklist)
    (hn : n ∈ s.visited ++ old) {i : ℕ} : i ∈ (P.processNode A s m).nodeLockSets n ↔
      i ∈ s.nodeLockSets n ∨ n ∈ P.ccpg.orderSuccs m ∧ i ∈ (P.execNode s m).nodeLockSets m := by
  have hne : n ≠ m := fun h => (List.nodup_cons.mp (hs.nodup_cons hm)).1 (h ▸ hn)
  have hset : (P.execNode s m).nodeLockSets n = s.nodeLockSets n := execNode_sets_of_ne hne
  rw [LockProgram.processNode, ← hset]
  rcases List.mem_append.mp hn with hn | hn
  · have hnexec : n ∈ (P.execNode s m).visited := List.mem_cons_of_mem m hn
    exact mem_foldl_passTo List.mem_cons_self hnexec
  · have hsucc : n ∉ P.ccpg.orderSuccs m := fun h => hs.succ_notMem_old hm h hn
    rw [foldl_passTo_of_notMem hsucc]
    simp [hsucc]

/-- Once a node was visited, a later visit adds what it hands to its successors. -/
theorem collects_cons (hm : m ∉ vis) (hn : n ∈ vis) {x : NodeId} :
    P.Collects A (m :: vis) n x ↔ P.Collects A vis n x ∨
      P.ccpg.OrderStep m n ∧ x ∈ P.heldAfter A (m :: vis) m := by
  have hne : ∀ q ∈ vis, q ≠ m := fun q hq h => hm (h ▸ hq)
  have hmb : m ∉ before vis n := fun h => hm (Traversal.before_subset h)
  have hmn : m ≠ n := (hne n hn).symm
  rw [Collects, List.exists_mem_cons_iff, Traversal.before_cons_of_ne (hne n hn), or_comm]
  refine or_congr (exists_congr fun q => and_congr_right fun hq => ?_) (by simp [hmn, hmb])
  rw [heldAfter_cons (hne q hq)]

/-- A node hands itself what it holds after its operations. -/
theorem collects_cons_self (hm : m ∉ vis) {x : NodeId} :
    P.Collects A (m :: vis) m x ↔ x ∈ P.heldAfter A (m :: vis) m := by
  rw [Collects, Traversal.before_cons_self]
  constructor
  · rintro ⟨q, hq, rfl | ⟨-, hnot⟩, hx⟩
    · exact hx
    · rcases List.mem_cons.mp hq with rfl | hq
      · exact hx
      · exact absurd hq hnot
  · exact fun hx => ⟨m, List.mem_cons_self, Or.inl rfl, hx⟩

/-- Every lock that is collected was acquired somewhere. -/
theorem Collects.mem_acquired {x : NodeId} (hx : P.Collects A vis n x) : x ∈ P.acquired vis := by
  obtain ⟨q, hq, -, hx⟩ := hx
  exact mem_acquired_of_mem_heldAfter hq hx

section Turn

variable (hs : P.InFunction f old s) (hm : m ∈ s.worklist)
  (hset : (P.execNode s m).nodeLockSets m =
    (P.heldAfter A (m :: (s.visited ++ old)) m).map (P.lockNo (m :: (s.visited ++ old))))

include hs hm hset

/-- The node that is processed leaves no lock twice. -/
theorem nodup_execNode : ((P.execNode s m).nodeLockSets m).Nodup := by
  have hheld : ∀ x ∈ P.heldAfter A (m :: (s.visited ++ old)) m,
      x ∈ P.acquired (m :: (s.visited ++ old)) := fun x =>
    mem_acquired_of_mem_heldAfter List.mem_cons_self
  rw [hset]
  exact (nodup_heldAfter (hs.nodup_cons hm)).map_on fun x hx y _ => lockNo_inj (hheld x hx)

/-- What arrives at a queued node after the turn: a new successor gets what the node leaves, and the
others wait with what they have. -/
theorem queued_processNode (hqueued : ∀ n ∈ s.worklist, s.nodeLockSets n =
      (P.arrival A (s.visited ++ old) n).map (P.lockNo (s.visited ++ old)))
    (hn : n ∈ (P.processNode A s m).worklist) : (P.processNode A s m).nodeLockSets n =
      (P.arrival A (m :: (s.visited ++ old)) n).map (P.lockNo (m :: (s.visited ++ old))) := by
  have hmexec : m ∈ (P.execNode s m).visited := List.mem_cons_self
  have hturn : n ∈ (Traversal.turn P.ccpg.orderSuccs (s.visited, s.worklist) m).2 := by
    rwa [← processNode_traversal (A := A)]
  have hnm : n ∉ m :: s.visited := by
    have := (hs.traversal.turn hm).unvisited n hturn
    exact this
  rw [arrival]
  by_cases hstep : P.ccpg.OrderStep m n
  · have hmem : n ∈ P.ccpg.orderSuccs m := P.ccpg.mem_orderSuccs.mpr hstep
    rw [if_pos hstep, LockProgram.processNode,
      foldl_passTo_unvisited hmexec (nodup_execNode hs hm hset) hnm hmem, handed, hset,
      ← heldAfter_cons_self]
    split_ifs
    · refine (List.map_insertionSort _ (fun i j => A.lockAddr i ≤ A.lockAddr j) _ _ ?_).symm
      exact fun x _ y _ => Iff.rfl
    · rfl
  · have hmem : n ∉ P.ccpg.orderSuccs m := fun h => hstep (P.ccpg.mem_orderSuccs.mp h)
    have hne : n ≠ m := fun h => hnm (h ▸ List.mem_cons_self)
    have hwork : n ∈ s.worklist := by
      rcases (Traversal.mem_turn_worklist hs.traversal.worklist_nodup).mp hturn with h | h
      · exact h.1
      · exact absurd h.1 hmem
    rw [if_neg hstep, LockProgram.processNode, foldl_passTo_of_notMem hmem,
      execNode_sets_of_ne hne, hqueued n hwork]
    exact (map_lockNo_cons fun x => mem_acquired_of_mem_arrival).symm

/-- What the lockset of a processed node has after the turn: the node itself has what it leaves, and
its successors collect that. -/
theorem settled_processNode (hsettled : ∀ n ∈ s.visited ++ old, ∀ i, i ∈ s.nodeLockSets n ↔
      ∃ x, P.Collects A (s.visited ++ old) n x ∧ P.lockNo (s.visited ++ old) x = i)
    (hn : n ∈ m :: (s.visited ++ old)) (i : ℕ) : i ∈ (P.processNode A s m).nodeLockSets n ↔
      ∃ x, P.Collects A (m :: (s.visited ++ old)) n x ∧
        P.lockNo (m :: (s.visited ++ old)) x = i := by
  have hmexec : m ∈ (P.execNode s m).visited := List.mem_cons_self
  have hmvis := (List.nodup_cons.mp (hs.nodup_cons hm)).1
  by_cases hnm : n = m
  · subst hnm
    rw [LockProgram.processNode, mem_foldl_passTo hmexec hmexec, or_iff_left_of_imp And.right,
      hset, List.mem_map]
    simp only [collects_cons_self hmvis]
  · have hnvis : n ∈ s.visited ++ old := List.mem_of_ne_of_mem hnm hn
    rw [mem_processNode_sets hs hm hnvis, hsettled n hnvis, hset, List.mem_map,
      P.ccpg.mem_orderSuccs]
    simp only [collects_cons hmvis hnvis, or_and_right, exists_or]
    refine or_congr (exists_congr fun x => and_congr_right fun hx => ?_) ?_
    · rw [lockNo_cons hx.mem_acquired]
    · simp only [and_assoc, exists_and_left]

/-- No lockset holds a lock twice after the turn. -/
theorem nodup_processNode (hnodup : ∀ n ∈ s.visited ++ old, (s.nodeLockSets n).Nodup)
    (hn : n ∈ m :: (s.visited ++ old)) : ((P.processNode A s m).nodeLockSets n).Nodup := by
  have hmexec : m ∈ (P.execNode s m).visited := List.mem_cons_self
  by_cases hnm : n = m
  · subst hnm
    exact nodup_foldl_passTo hmexec (nodup_execNode hs hm hset)
  · have hnvis : n ∈ s.visited ++ old := List.mem_of_ne_of_mem hnm hn
    have hexec : ((P.execNode s m).nodeLockSets n).Nodup := by
      rw [execNode_sets_of_ne hnm]
      exact hnodup n hnvis
    rw [LockProgram.processNode]
    rcases List.mem_append.mp hnvis with h | h
    · exact nodup_foldl_passTo (List.mem_cons_of_mem _ h) hexec
    · rwa [foldl_passTo_of_notMem fun hsucc => hs.succ_notMem_old hm hsucc h]

end Turn

/-- A turn keeps the invariant unless it gives back a lock again. -/
theorem Inv.processNode (hs : P.InFunction f old s) (hm : m ∈ s.worklist)
    (hinv : P.Inv A (s.visited ++ old) s.worklist s.locks s.nodeLockSets)
    (hfresh : ∀ x, P.given m (P.arrival A (s.visited ++ old) m) = some x →
      ∀ q ∈ s.visited ++ old, P.givenAt A (s.visited ++ old) q ≠ some x) :
    P.Inv A ((P.processNode A s m).visited ++ old) (P.processNode A s m).worklist
      (P.processNode A s m).locks (P.processNode A s m).nodeLockSets := by
  have hvis := hs.nodup_cons hm
  obtain ⟨hlocks, hset⟩ := hinv.locksAt.applyOps hvis hfresh
  rw [← hinv.queued m hm, ← execNode_sets_self] at hset
  rw [← hinv.queued m hm, ← processNode_locks (A := A)] at hlocks
  rw [processNode_visited, List.cons_append]
  exact
    { once := (givenOnce_cons (List.nodup_cons.mp hvis).1).mpr ⟨hinv.once, hfresh⟩
      locksAt := hlocks
      queued := fun n hn => queued_processNode hs hm hset hinv.queued hn
      settled := fun n hn i => settled_processNode hs hm hset hinv.settled hn i
      nodup := fun n hn => nodup_processNode hs hm hset hinv.nodup hn }

/-- A lock that is given back again stays in the lockset. -/
theorem Inv.keepsReleased (hm : m ∈ s.worklist)
    (hinv : P.Inv A (s.visited ++ old) s.worklist s.locks s.nodeLockSets) {x q : NodeId}
    (hgiven : P.given m (P.arrival A (s.visited ++ old) m) = some x) (hq : q ∈ s.visited ++ old)
    (hagain : P.givenAt A (s.visited ++ old) q = some x) :
    P.KeepsReleased ((P.processNode A s m).visited ++ old) (P.processNode A s m).locks
      (P.processNode A s m).nodeLockSets := by
  obtain ⟨r, hop, hfind⟩ := given_eq_some.mp hgiven
  have hx := mem_acquired_of_mem_arrival (mem_of_given hgiven)
  obtain ⟨l, hl, hacq, -⟩ := hinv.locksAt.lock x hx
  -- The lock is still in the lockset of the node, and the node releases it.
  refine ⟨m, ?_, P.lockNo (s.visited ++ old) x, ?_, l.acquire, r, ?_, hop, ?_⟩
  · rw [processNode_visited]
    exact List.mem_cons_self
  · rw [LockProgram.processNode, mem_foldl_passTo List.mem_cons_self List.mem_cons_self,
      execNode_sets_self]
    refine Or.inl (hinv.locksAt.mem_applyOps hx hq hagain ?_ hop)
    rw [hinv.queued m hm]
    exact List.mem_map_of_mem (mem_of_given hgiven)
  · rw [processNode_locks]
    exact acquire_foldl_applyOp (by rw [hl]; rfl)
  · have hgives := List.find?_some hfind
    rwa [GivesBack, hacq, Option.any_some] at hgives

/-- Later turns leave it there. -/
theorem KeepsReleased.processNode (hs : P.InFunction f old s) (hm : m ∈ s.worklist)
    (hkeeps : P.KeepsReleased (s.visited ++ old) s.locks s.nodeLockSets) :
    P.KeepsReleased ((P.processNode A s m).visited ++ old) (P.processNode A s m).locks
      (P.processNode A s m).nodeLockSets := by
  obtain ⟨n, hn, i, hi, a, r, ha, hop, halias⟩ := hkeeps
  refine ⟨n, ?_, i, (mem_processNode_sets hs hm hn).mpr (Or.inl hi), a, r, ?_, hop, halias⟩
  · rw [processNode_visited]
    exact List.mem_cons_of_mem _ hn
  · rw [processNode_locks]
    exact acquire_foldl_applyOp ha

/-- One turn of the loop. -/
theorem Outcome.processNode (hs : P.InFunction f old s) (hm : m ∈ s.worklist)
    (hout : P.Outcome A (s.visited ++ old) s.worklist s.locks s.nodeLockSets) :
    P.Outcome A ((P.processNode A s m).visited ++ old) (P.processNode A s m).worklist
      (P.processNode A s m).locks (P.processNode A s m).nodeLockSets := by
  have hmvis := (List.nodup_cons.mp (hs.nodup_cons hm)).1
  rcases hout with hinv | ⟨htwice, hkeeps⟩
  · by_cases hfresh : ∀ x, P.given m (P.arrival A (s.visited ++ old) m) = some x →
        ∀ q ∈ s.visited ++ old, P.givenAt A (s.visited ++ old) q ≠ some x
    · exact Or.inl (hinv.processNode hs hm hfresh)
    · -- The node gives back a lock for the second time.
      refine Or.inr ⟨fun honce => hfresh ?_, ?_⟩
      · rw [processNode_visited, List.cons_append] at honce
        exact ((givenOnce_cons hmvis).mp honce).2
      · simp only [not_forall, not_not] at hfresh
        obtain ⟨x, hgiven, q, hq, hagain⟩ := hfresh
        exact hinv.keepsReleased hm hgiven hq hagain
  · -- A lock was given back twice before, and still is where it was.
    refine Or.inr ⟨fun honce => htwice ?_, hkeeps.processNode hs hm⟩
    rw [processNode_visited, List.cons_append] at honce
    exact ((givenOnce_cons hmvis).mp honce).1

/-! ### All functions -/

/-- All turns for one function. -/
theorem Outcome.loop (fuel : ℕ) (hs : P.InFunction f old s)
    (hout : P.Outcome A (s.visited ++ old) s.worklist s.locks s.nodeLockSets) :
    P.Outcome A ((P.loop A fuel s).visited ++ old) (P.loop A fuel s).worklist
      (P.loop A fuel s).locks (P.loop A fuel s).nodeLockSets := by
  induction fuel generalizing s with
  | zero => exact hout
  | succ fuel ih =>
      unfold LockProgram.loop
      cases hmin : s.worklist.argmin A.nodeAddr with
      | none => exact hout
      | some m =>
          have hm : m ∈ s.worklist := List.argmin_mem hmin
          exact ih (hs.processNode hm) (hout.processNode hs hm)

/-- The analysis of a function leaves the locksets of other nodes alone. -/
theorem loop_sets_of_outside (hn : ¬P.Inside f n) (fuel : ℕ) (hs : P.InFunction f old s) :
    (P.loop A fuel s).nodeLockSets n = s.nodeLockSets n := by
  induction fuel generalizing s with
  | zero => rfl
  | succ fuel ih =>
      unfold LockProgram.loop
      cases hmin : s.worklist.argmin A.nodeAddr with
      | none => rfl
      | some m =>
          have hm : m ∈ s.worklist := List.argmin_mem hmin
          have hin : P.Inside f m := inside_iff.mp (hs.traversal.reachable m (Or.inr hm))
          have hne : n ≠ m := fun h => hn (h ▸ hin)
          -- The locks of a node are passed on inside the function.
          have hsucc : n ∉ P.ccpg.orderSuccs m := fun h =>
            hn (hin.step (P.ccpg.mem_orderSuccs.mp h))
          refine (ih (hs.processNode hm)).trans ?_
          rw [LockProgram.processNode, foldl_passTo_of_notMem hsucc, execNode_sets_of_ne hne]

/-- Queueing the entry of a function. -/
theorem Outcome.start (hold : ∀ n ∈ vis, ¬P.Inside f n)
    (hentry : ∀ n ∈ vis, ¬P.ccpg.OrderStep n f.funcNode) (hout : P.Outcome A vis [] locks sets) :
    P.Outcome A vis [f.funcNode] locks (Function.update sets f.funcNode []) := by
  have hne : ∀ n ∈ vis, n ≠ f.funcNode := by
    rintro n hn rfl
    exact hold _ hn Relation.ReflTransGen.refl
  have hsets : ∀ n ∈ vis, Function.update sets f.funcNode [] n = sets n := fun n hn =>
    Function.update_of_ne (hne n hn) _ _
  rcases hout with hinv | ⟨htwice, n, hn, i, hi, hrest⟩
  · refine Or.inl ⟨hinv.once, hinv.locksAt, fun n hn => ?_, fun n hn => ?_, fun n hn => ?_⟩
    · obtain rfl := List.mem_singleton.mp hn
      -- Nothing arrives at the entry, whose set is empty.
      rw [Function.update_self, arrival_eq_nil hentry, List.map_nil]
    · rw [hsets n hn]
      exact hinv.settled n hn
    · rw [hsets n hn]
      exact hinv.nodup n hn
  · exact Or.inr ⟨htwice, n, hn, i, by rwa [hsets n hn], hrest⟩

/-- The analysis of one function. -/
theorem Outcome.buildFunction (hvis : vis.Nodup) (hold : ∀ n ∈ vis, ¬P.Inside f n)
    (hentry : ∀ n ∈ vis, ¬P.ccpg.OrderStep n f.funcNode) (hout : P.Outcome A vis [] locks sets) :
    P.Outcome A (P.orderOf A f ++ vis) [] (P.buildFunction A (locks, sets) f).1
      (P.buildFunction A (locks, sets) f).2 := by
  have hs : P.InFunction f vis (LockProgram.start locks sets f) := ⟨Traversal.inv_start, hold, hvis⟩
  have hloop := Outcome.loop (P.ccpg.edges.length + 2) hs (hout.start hold hentry)
  obtain ⟨hvisited, hworklist⟩ := Prod.ext_iff.mp
    (@loop_traversal P A (LockProgram.start locks sets f) (P.ccpg.edges.length + 2))
  simp only at hvisited hworklist
  rw [hvisited, hworklist] at hloop
  have hdrained : (Traversal.run P.ccpg.orderSuccs A.nodeAddr (P.ccpg.edges.length + 2)
      ([], [f.funcNode])).2 = [] :=
    Traversal.run_worklist_eq_nil (fun _ hn => (inside_iff.mp hn).mem_insert) card_insert_lt
  exact hdrained ▸ hloop

/-- What holds at the start of the analysis and is kept by the analysis of every function, holds
when the analysis ends. The nodes processed before a function are not connected to it. -/
theorem build_induction {C : List NodeId → List Lock × (NodeId → List ℕ) → Prop}
    (hstart : C [] ([], fun _ => []))
    (hstep : ∀ f ∈ P.functions, ∀ vis r, vis.Nodup → (∀ n ∈ vis, ¬P.Inside f n) →
      (∀ q ∈ vis, ∀ n, P.ccpg.OrderStep q n → ¬P.Inside f n) → C vis r →
        C (P.orderOf A f ++ vis) (P.buildFunction A r f)) : C (P.order A) (P.build A) := by
  suffices hfold : ∀ (fs : List CCPGFunction) vis r, (∀ f ∈ fs, f ∈ P.functions) →
      fs.Pairwise (fun f g => ∀ n, P.Inside f n → ¬P.Inside g n) → vis.Nodup →
      (∀ n ∈ vis, ∃ g, P.Inside g n ∧ ∀ f ∈ fs, ∀ n, P.Inside g n → ¬P.Inside f n) → C vis r →
        C (fs.foldl (fun vis f => P.orderOf A f ++ vis) vis) (fs.foldl (P.buildFunction A) r) from
    hfold P.functions [] _ (fun _ h => h) P.disjoint List.nodup_nil (by simp) hstart
  intro fs
  induction fs with
  | nil => exact fun _ _ _ _ _ _ hC => hC
  | cons f fs ih =>
      intro vis r hfs hdisj hvis hfrom hC
      obtain ⟨hf, hdisj⟩ := List.pairwise_cons.mp hdisj
      have hold : ∀ n ∈ vis, ¬P.Inside f n := fun n hn hin => by
        obtain ⟨g, hg, hgf⟩ := hfrom n hn
        exact hgf f List.mem_cons_self n hg hin
      have hout : ∀ q ∈ vis, ∀ n, P.ccpg.OrderStep q n → ¬P.Inside f n := fun q hq n hqn => by
        obtain ⟨g, hg, hgf⟩ := hfrom q hq
        exact hgf f List.mem_cons_self n (hg.step hqn)
      -- The nodes of `f` are new, and belong to `f`.
      refine ih _ _ (fun g hg => hfs g (List.mem_cons_of_mem _ hg)) hdisj ?_ (fun n hn => ?_)
        (hstep f (hfs f List.mem_cons_self) vis r hvis hold hout hC)
      · refine List.nodup_append.mpr ⟨Traversal.nodup_order, hvis, ?_⟩
        rintro n hn n' hn' rfl
        exact hold n hn' (mem_orderOf.mp hn)
      · rcases List.mem_append.mp hn with hn | hn
        · exact ⟨f, mem_orderOf.mp hn, hf⟩
        · obtain ⟨g, hg, hgf⟩ := hfrom n hn
          exact ⟨g, hg, fun f' hf' => hgf f' (List.mem_cons_of_mem _ hf')⟩

/-- The whole analysis. -/
theorem outcome_build : P.Outcome A (P.order A) [] (P.build A).1 (P.build A).2 := by
  apply @build_induction P A fun vis r => P.Outcome A vis [] r.1 r.2
  · exact Or.inl ⟨by simp [GivenOnce], ⟨rfl, by simp [acquired]⟩, by simp, by simp, by simp⟩
  · intro f _ vis r hvis hold hout houtcome
    refine houtcome.buildFunction hvis hold fun n hn hentry => ?_
    exact hout n hn _ hentry Relation.ReflTransGen.refl

/-- Outside all functions the locksets stay empty. -/
theorem build_sets_of_notMem (hn : n ∉ P.order A) : (P.build A).2 n = [] := by
  revert hn
  apply @build_induction P A fun vis r => n ∉ vis → r.2 n = []
  · exact fun _ => rfl
  · intro f _ vis r hvis hold hout hr hn
    obtain ⟨hnf, hnvis⟩ := not_or.mp (mt List.mem_append.mpr hn)
    have hin : ¬P.Inside f n := fun hin => hnf (mem_orderOf.mpr hin)
    have hne : n ≠ f.funcNode := fun h => hin (h ▸ Relation.ReflTransGen.refl)
    have hs : P.InFunction f vis (start r.1 r.2 f) := ⟨Traversal.inv_start, hold, hvis⟩
    calc (P.buildFunction A r f).2 n = (start r.1 r.2 f).nodeLockSets n :=
          loop_sets_of_outside hin _ hs
      _ = r.2 n := Function.update_of_ne hne _ _
      _ = [] := hr hnvis

/-- Every node is processed once. -/
theorem nodup_order : (P.order A).Nodup := by
  apply @build_induction P A fun vis _ => vis.Nodup
  · exact List.nodup_nil
  · intro f _ vis r _ hold _ hvis
    refine List.nodup_append.mpr ⟨Traversal.nodup_order, hvis, ?_⟩
    rintro n hn n' hn' rfl
    exact hold n hn' (mem_orderOf.mp hn)

/-- A node is the entry of a function, with no predecessor before it, or it has a predecessor
that was processed before it. -/
theorem order_visited (hn : n ∈ P.order A) :
    (∃ f ∈ P.functions, n = f.funcNode ∧ ∀ q ∈ before (P.order A) n, ¬P.ccpg.OrderStep q n) ∨
      ∃ q ∈ before (P.order A) n, P.ccpg.OrderStep q n := by
  revert hn
  apply @build_induction P A fun vis _ => n ∈ vis →
    (∃ f ∈ P.functions, n = f.funcNode ∧ ∀ q ∈ before vis n, ¬P.ccpg.OrderStep q n) ∨
      ∃ q ∈ before vis n, P.ccpg.OrderStep q n
  · exact fun hn => absurd hn List.not_mem_nil
  · intro f hf vis r _ hold hout hvis hn
    by_cases hnf : n ∈ P.orderOf A f
    · -- The nodes of other functions are no predecessors.
      rw [Traversal.before_append_left hnf]
      rcases Traversal.order_visited hnf with ⟨hroot, hnil⟩ | ⟨q, hq, hstep⟩
      · refine Or.inl ⟨f, hf, hroot, fun q hq hstep => ?_⟩
        rw [← orderOf] at hnil
        rw [hnil, List.nil_append] at hq
        exact hout q hq n hstep (mem_orderOf.mp hnf)
      · exact Or.inr ⟨q, List.mem_append_left _ hq, P.ccpg.mem_orderSuccs.mp hstep⟩
    · rw [Traversal.before_append_right hnf]
      exact hvis ((List.mem_append.mp hn).resolve_left hnf)

end Lace.LockProgram
