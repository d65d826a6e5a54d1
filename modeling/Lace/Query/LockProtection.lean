import Lace.Query.Consistency
import Lace.Surface.ProtectingLock

/-!
# The lock protection of a node, told twice

`get_lock_protection` tells the model in which contexts a node is protected, and
`eval_not_lock_protected` decides the constraint the model then writes. The first one asks
`LSAnalysis` for the locks at the source location of the node, the second one for the locks at the
node itself.

## Main definitions

* `LockProtectionTool`: what the tool reads;
* `LockProtectionTool.getLockProtection`: its answer;
* `LockProtectionTool.SiblingsAgree`: the other nodes at the location do not change the verdict.

## Main results

* `LockProtectionTool.hasUnprotectedPath_iff`: the flag of the tool, in terms of the locks;
* `LockProtectionTool.evalNotLockProtected_iff`: the constraint, in the same terms;
* `LockProtectionTool.agrees_iff`: the two agree exactly if the siblings agree.
-/

namespace Lace

/-- What `get_lock_protection` reads besides the data of the verifier. -/
structure LockProtectionTool where
  /-- The verifier of the same graph, contexts and locksets. -/
  verifier : HypothesisVerifier
  /-- `getNodesByLoc` of the node's location. -/
  siblings : NodeId → List NodeId
  /-- `getCode` of the node's CPG node, where there is one. -/
  code : NodeId → Option String

/-- One entry of `contexts`. -/
structure ContextEntry where
  /-- `context`. -/
  context : Context
  /-- `locks_held`. -/
  locksHeld : List String
  /-- `is_protected`. -/
  isProtected : Bool
  deriving DecidableEq, Repr

/-- The answer of `get_lock_protection`. -/
structure LockProtection where
  /-- `node_id`. -/
  nodeId : NodeId
  /-- `contexts`. -/
  contexts : List ContextEntry
  /-- `all_locks_union`. -/
  allLocksUnion : List String
  /-- `is_protected`. -/
  isProtected : Bool
  /-- `has_unprotected_path`. -/
  hasUnprotectedPath : Bool
  deriving DecidableEq, Repr

/-- The variables that the loop over the contexts fills. -/
structure ProtectionLoop where
  /-- `ctxArr`. -/
  ctxArr : List ContextEntry := []
  /-- `unionLockIds`. -/
  unionLockIds : List ℕ := []
  /-- `unionLockNames`. -/
  unionLockNames : List String := []
  /-- `anyUnprotected`. -/
  anyUnprotected : Bool := false

namespace LockProtectionTool

variable (T : LockProtectionTool)

/-- The data of the tool as the surface generator reads it. -/
def lockSurface : LockSurface where
  ccpg := T.verifier.ccpg
  siblings := T.siblings
  nodeLockSets := T.verifier.nodeLockSets
  contextSet := T.verifier.contextSet
  lockAddr := T.verifier.lockAddr
  lockAcquire := T.verifier.lockAcquire
  code := T.code
  ir := T.verifier.ir

/-- `lockToCode`: the code that takes a lock, for the answer. -/
def lockToCode (l : ℕ) : String := (T.code (T.verifier.lockAcquire l)).getD "?"

/-- One lock of a context. -/
def addLock (loop : ProtectionLoop) (l : ℕ) : ProtectionLoop :=
  if l ∈ loop.unionLockIds then loop
  else
    { loop with
      unionLockIds := l :: loop.unionLockIds
      unionLockNames := loop.unionLockNames ++ [T.lockToCode l] }

/-- `addContextEntry`: what one context of a function adds to the answer. -/
def addContextEntry (node : NodeId) (loop : ProtectionLoop) (c : Context) : ProtectionLoop :=
  -- The locks of all nodes at the location, where the constraint reads those of the node.
  let lockSet := T.lockSurface.lockSetAt node c
  let loop := lockSet.foldl T.addLock loop
  { loop with
    ctxArr := loop.ctxArr ++
      [{ context := c, locksHeld := lockSet.map T.lockToCode, isProtected := !lockSet.isEmpty }]
    anyUnprotected := loop.anyUnprotected || lockSet.isEmpty }

/-- The loop over the contexts; the empty context stands in where there is none. -/
def protectionLoop (node : NodeId) : ProtectionLoop :=
  if (T.verifier.contextSet node).isEmpty then T.addContextEntry node {} []
  else (T.verifier.contextSet node).foldl (T.addContextEntry node) {}

/-- `get_lock_protection`; `none` is the error `Node not found.` -/
def getLockProtection (nodeId : NodeId) : Option LockProtection :=
  (T.verifier.ccpg.getNodeByID nodeId).map fun node =>
    let loop := T.protectionLoop node
    { nodeId := nodeId
      contexts := loop.ctxArr
      allLocksUnion := loop.unionLockNames
      isProtected := !loop.anyUnprotected && !loop.unionLockNames.isEmpty
      hasUnprotectedPath := loop.anyUnprotected }

/-- In some context of the node no call site holds a lock. -/
def CallersUnlocked (node : NodeId) : Prop :=
  ∃ c ∈ T.lockSurface.contexts node, ∀ site ∈ c, T.verifier.nodeLockSets site = []

/-- The node holds no lock of its own exactly if no node at its location does, or the callers
decide. -/
def SiblingsAgree (node : NodeId) : Prop :=
  T.CallersUnlocked node →
    (T.verifier.nodeLockSets node = [] ↔
      ∀ sibling ∈ T.siblings node, T.verifier.nodeLockSets sibling = [])

instance (node : NodeId) : Decidable (T.CallersUnlocked node) :=
  inferInstanceAs (Decidable (∃ c ∈ T.lockSurface.contexts node, _))

instance (node : NodeId) : Decidable (T.SiblingsAgree node) :=
  inferInstanceAs (Decidable (_ → _))

variable {T} {node : NodeId}

/-! ### The loop -/

theorem anyUnprotected_addLock (loop : ProtectionLoop) (locks : List ℕ) :
    (locks.foldl T.addLock loop).anyUnprotected = loop.anyUnprotected := by
  induction locks generalizing loop with
  | nil => rfl
  | cons l locks ih =>
    rw [List.foldl_cons, ih, addLock]
    split_ifs
    · rfl
    · rfl

theorem anyUnprotected_addContextEntry (loop : ProtectionLoop) (c : Context) :
    (T.addContextEntry node loop c).anyUnprotected =
      (loop.anyUnprotected || (T.lockSurface.lockSetAt node c).isEmpty) := by
  dsimp only [addContextEntry]
  rw [anyUnprotected_addLock]

theorem anyUnprotected_foldl (loop : ProtectionLoop) (ctxs : List Context) :
    (ctxs.foldl (T.addContextEntry node) loop).anyUnprotected =
      (loop.anyUnprotected || ctxs.any fun c => (T.lockSurface.lockSetAt node c).isEmpty) := by
  induction ctxs generalizing loop with
  | nil => simp
  | cons c ctxs ih =>
    rw [List.foldl_cons, ih, anyUnprotected_addContextEntry, List.any_cons, Bool.or_assoc]

/-- The loop finds an unprotected context exactly if there is one. -/
theorem anyUnprotected_protectionLoop : (T.protectionLoop node).anyUnprotected =
    (T.lockSurface.contexts node).any fun c => (T.lockSurface.lockSetAt node c).isEmpty := by
  unfold protectionLoop LockSurface.contexts
  show _ = (if (T.verifier.contextSet node).isEmpty then _ else T.verifier.contextSet node).any _
  split_ifs
  · rw [anyUnprotected_addContextEntry]
    simp
  · rw [anyUnprotected_foldl]
    simp

/-! ### The locksets -/

/-- Sorting and removing duplicates leaves nothing only of nothing. -/
theorem isEmpty_insertionSort_dedup (r : ℕ → ℕ → Prop) [DecidableRel r] (locks : List ℕ) :
    (locks.dedup.insertionSort r).isEmpty = true ↔ ∀ l, l ∉ locks := by
  rw [List.isEmpty_iff, ← List.length_eq_zero_iff, List.length_insertionSort,
    List.length_eq_zero_iff, List.eq_nil_iff_forall_not_mem]
  simp only [List.mem_dedup]

theorem forall_notMem_append_flatMap {locksOf : NodeId → List ℕ} {c : Context} {own : List ℕ} :
    (∀ l, l ∉ c.flatMap locksOf ++ own) ↔ (∀ site ∈ c, locksOf site = []) ∧ own = [] := by
  rw [← List.eq_nil_iff_forall_not_mem, List.append_eq_nil_iff, List.flatMap_eq_nil_iff]

/-- The tool reports an unprotected path exactly if some context leaves the callers without a lock,
and no node at the location holds one. -/
theorem hasUnprotectedPath_iff : (T.protectionLoop node).anyUnprotected = true ↔
    T.CallersUnlocked node ∧
      ∀ sibling ∈ T.siblings node, T.verifier.nodeLockSets sibling = [] := by
  rw [anyUnprotected_protectionLoop, List.any_eq_true]
  have hlocks : ∀ c, (T.lockSurface.lockSetAt node c).isEmpty = true ↔
      (∀ site ∈ c, T.verifier.nodeLockSets site = []) ∧
        ∀ sibling ∈ T.siblings node, T.verifier.nodeLockSets sibling = [] := by
    intro c
    rw [LockSurface.lockSetAt, isEmpty_insertionSort_dedup, forall_notMem_append_flatMap,
      List.flatMap_eq_nil_iff]
    rfl
  simp only [hlocks, CallersUnlocked]
  constructor
  · rintro ⟨c, hc, hcallers, hsiblings⟩
    exact ⟨⟨c, hc, hcallers⟩, hsiblings⟩
  · rintro ⟨⟨c, hc, hcallers⟩, hsiblings⟩
    exact ⟨c, hc, hcallers, hsiblings⟩

/-- The constraint holds exactly if some context leaves the callers without a lock, and the node
itself holds none. -/
theorem evalNotLockProtected_iff (hnode : node ∈ T.verifier.ccpg.nodes) :
    T.verifier.evalNotLockProtected node = true ↔
      T.CallersUnlocked node ∧ T.verifier.nodeLockSets node = [] := by
  have hlocks : ∀ c, (T.verifier.lockSetAt node c).isEmpty = true ↔
      (∀ site ∈ c, T.verifier.nodeLockSets site = []) ∧ T.verifier.nodeLockSets node = [] := by
    intro c
    rw [HypothesisVerifier.lockSetAt, CallStructure.getLockSet, isEmpty_insertionSort_dedup,
      forall_notMem_append_flatMap]
  -- Without a context the node is asked for in the empty one.
  have hany : T.verifier.evalNotLockProtected node =
      (T.lockSurface.contexts node).any fun c => (T.verifier.lockSetAt node c).isEmpty := by
    unfold HypothesisVerifier.evalNotLockProtected LockSurface.contexts
    rw [CCPG.getNodeByID_of_mem _ hnode]
    show (if (T.verifier.contextSet node).isEmpty then _ else _) =
      (if (T.verifier.contextSet node).isEmpty then _ else T.verifier.contextSet node).any _
    split_ifs
    · simp
    · rfl
  rw [hany, List.any_eq_true]
  simp only [hlocks, CallersUnlocked]
  constructor
  · rintro ⟨c, hc, hcallers, hown⟩
    exact ⟨⟨c, hc, hcallers⟩, hown⟩
  · rintro ⟨⟨c, hc, hcallers⟩, hown⟩
    exact ⟨c, hc, hcallers, hown⟩

/-! ### The two answers -/

/-- For a node of the graph the flag of the tool is the value of the constraint exactly if the
nodes that share its source location agree with it about holding a lock, or in no context the
callers are without a lock. -/
theorem agrees_iff (T : LockProtectionTool) (node : NodeId) (hnode : node ∈ T.verifier.ccpg.nodes) :
    (T.getLockProtection node).map LockProtection.hasUnprotectedPath =
        some (T.verifier.evalNotLockProtected node) ↔
      T.SiblingsAgree node := by
  have hflag : (T.getLockProtection node).map LockProtection.hasUnprotectedPath =
      some (T.protectionLoop node).anyUnprotected := by
    rw [getLockProtection, CCPG.getNodeByID_of_mem _ hnode]
    rfl
  -- Both ask for a context in which the callers hold no lock.
  rw [hflag, Option.some.injEq, Bool.eq_iff_iff, hasUnprotectedPath_iff,
    evalNotLockProtected_iff hnode, SiblingsAgree]
  constructor
  · intro h hcallers
    constructor
    · intro hown
      exact (h.mpr ⟨hcallers, hown⟩).2
    · intro hsiblings
      exact (h.mp ⟨hcallers, hsiblings⟩).2
  · intro h
    constructor
    · rintro ⟨hcallers, hsiblings⟩
      exact ⟨hcallers, (h hcallers).mpr hsiblings⟩
    · rintro ⟨hcallers, hown⟩
      exact ⟨hcallers, (h hcallers).mp hown⟩

/-! ### Two nodes on one line -/

/-- Nodes 3 and 4 are on one line, and node 4 holds a lock. -/
def sharedLine : LockProtectionTool where
  verifier :=
    { HypothesisVerifier.partlyLocked with
      contextSet := fun _ => []
      nodeLockSets := fun n => if n = 4 then [0] else [] }
  siblings n := if n = 3 ∨ n = 4 then [3, 4] else [n]
  code _ := none

/-- The tool calls node 3 protected, and the constraint that it is not holds. -/
theorem sharedLine_disagrees :
    (sharedLine.getLockProtection 3).map LockProtection.hasUnprotectedPath = some false ∧
      sharedLine.verifier.evalNotLockProtected 3 = true := by
  decide +kernel

/-- At node 4, which holds a lock itself, they agree, although its sibling holds none. -/
theorem sharedLine_agrees :
    (sharedLine.getLockProtection 4).map LockProtection.hasUnprotectedPath =
      some (sharedLine.verifier.evalNotLockProtected 4) :=
  (agrees_iff sharedLine 4 (by decide)).mpr (by decide +kernel)

end LockProtectionTool

end Lace
