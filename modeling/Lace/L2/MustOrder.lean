import Lace.HBGraph.Build
import Lace.L2.Evidence

/-!
# The must-order between critical sections

`buildLockEdges` orders the release of every lock before the acquire of every other lock of its
class in a concurrent thread. Two critical sections of one lock are therefore ordered both ways,
and only the depth cap of the search keeps the order from holding in both directions.

## Main definitions

* `HBInput.OrderWalk`: a walk over the edges of the input that crosses a synchronization edge;
* `HBInput.InSection`: a node between the acquire and the release of a lock.

## Main results

* `HBInput.orderWalk_of_sections`: the hand-over from one section to another;
* `HBInput.ordReach_antisymm_iff`: when the order holds in one direction at most.
-/

namespace Lace.HBInput

open Library

variable (I : HBInput)

/-- The evidence of a set of threads without guarantees. -/
def staticEvidence : OrderingEvidence :=
  buildEvidence I.ccpg ⟨[], TidSet.sorted_nil⟩ (fun _ => none) I.build I.env

/-- One edge of the input, with the flag that a synchronization edge was crossed. -/
def OrderStep (s t : NodeId × Bool) : Prop :=
  ∃ kind, I.Edge s.1 t.1 kind ∧ t.2 = (s.2 || isSyncEdge kind (l2SyncPolicy I.env))

/-- A walk of length `k` over the edges of the input that crosses a synchronization edge. -/
def OrderWalk (a : NodeId) (k : ℕ) (b : NodeId) : Prop := Steps I.OrderStep (a, false) k (b, true)

/-- `n` lies `i` steps after the acquire of `l` and `j` steps before its release, and both belong
to thread `t`. -/
structure InSection (l : Lock) (t : ThreadId) (n : NodeId) (i j : ℕ) : Prop where
  fromAcquire : Steps I.ccpg.OrderStep l.acquire i n
  toRelease : ∃ r, l.release = some r ∧ Steps I.ccpg.OrderStep n j r ∧ I.findThread r = some t
  findThread_acquire : I.findThread l.acquire = some t

variable {I} {a b : NodeId}

/-- The graph that is built has the steps of the input. -/
theorem syncStep_build :
    I.build.SyncStep (l2SyncPolicy I.env) = I.OrderStep := by
  ext s t
  constructor
  · rintro ⟨e, he, hsrc, hdst, hflag⟩
    exact ⟨e.kind, mem_build.mp ⟨e, he, hsrc, hdst, rfl⟩, hflag⟩
  · rintro ⟨kind, hedge, hflag⟩
    obtain ⟨e, he, hsrc, hdst, rfl⟩ := mem_build.mpr hedge
    exact ⟨e, he, hsrc, hdst, hflag⟩

/-- Control flow keeps the flag. -/
theorem orderStep_of_order {m n : NodeId} (hstep : I.ccpg.OrderStep m n) (flag : Bool) :
    I.OrderStep (m, flag) (n, flag) :=
  ⟨.programOrder, .program _ hstep, (Bool.or_false flag).symm⟩

/-- A lock is handed over from a section to a section of a concurrent thread. -/
theorem orderWalk_of_sections {cls : List Lock} {l1 l2 : Lock} {t1 t2 : ThreadId}
    {i1 j1 i2 j2 : ℕ} (hcls : cls ∈ I.lockClasses) (hl1 : l1 ∈ cls) (hl2 : l2 ∈ cls)
    (hid : l1.id ≠ l2.id) (h1 : I.InSection l1 t1 a i1 j1) (h2 : I.InSection l2 t2 b i2 j2)
    (hne : t1 ≠ t2) (hmay : I.mayThreadsRunConcurrently t1 t2 = true) :
    I.OrderWalk a (j1 + 1 + i2) b := by
  obtain ⟨r, hrel, hsteps, hthread⟩ := h1.toRelease
  have htoRelease : Steps I.OrderStep (a, false) j1 (r, false) :=
    hsteps.map (fun n => (n, false)) fun _ _ hstep => orderStep_of_order hstep false
  have hhandover : I.OrderStep (r, false) (l2.acquire, true) :=
    ⟨.lockReleaseAcquire, .lock hcls hl1 hl2 hid.symm hrel hthread h2.findThread_acquire hne hmay,
      rfl⟩
  have hfromAcquire : Steps I.OrderStep (l2.acquire, true) i2 (b, true) :=
    h2.fromAcquire.map (fun n => (n, true)) fun _ _ hstep => orderStep_of_order hstep true
  exact (htoRelease.tail hhandover).trans hfromAcquire

/-- Without guarantees the order is that of the synchronized walks within the cap. -/
theorem ordReach_staticEvidence_iff (hab : a ≠ b) (ha : a ∈ I.ccpg.nodes)
    (hb : b ∈ I.ccpg.nodes) : I.staticEvidence.ordReach a b = true ↔
      ∃ k ≤ I.staticEvidence.cap, I.OrderWalk a k b := by
  rw [OrderingEvidence.ordReach_of_no_guarantee rfl hab, OrderingEvidence.staticSyncOrder_iff]
  have hwalk : ∀ k, I.staticEvidence.SyncWalk a k b ↔ I.OrderWalk a k b := fun k => by
    rw [OrderWalk, ← syncStep_build]
    exact Iff.rfl
  simp only [hwalk]
  exact ⟨fun h => h.2.2.2, fun h => ⟨ha, hb, hab, h⟩⟩

/-- The order holds in one direction at most exactly when the cap cuts off all walks of one
direction. Between two critical sections of one lock class in concurrent threads there are walks
in both directions, so that nothing but the cap can do it. -/
theorem ordReach_antisymm_iff (hab : a ≠ b) (ha : a ∈ I.ccpg.nodes) (hb : b ∈ I.ccpg.nodes) :
    (¬(I.staticEvidence.ordReach a b = true ∧ I.staticEvidence.ordReach b a = true) ↔
      (∀ k, I.OrderWalk a k b → I.staticEvidence.cap < k) ∨
        ∀ k, I.OrderWalk b k a → I.staticEvidence.cap < k) ∧
    ∀ cls l1 l2 t1 t2 i1 j1 i2 j2, cls ∈ I.lockClasses → l1 ∈ cls → l2 ∈ cls → l1.id ≠ l2.id →
      I.InSection l1 t1 a i1 j1 → I.InSection l2 t2 b i2 j2 → t1 ≠ t2 →
      I.mayThreadsRunConcurrently t1 t2 = true → I.mayThreadsRunConcurrently t2 t1 = true →
        I.OrderWalk a (j1 + 1 + i2) b ∧ I.OrderWalk b (j2 + 1 + i1) a := by
  constructor
  · rw [ordReach_staticEvidence_iff hab ha hb, ordReach_staticEvidence_iff hab.symm hb ha,
      not_and_or]
    refine or_congr ?_ ?_ <;>
    · simp only [not_exists, not_and, imp_not_comm (a := _ ≤ _), not_le]
  · intro cls l1 l2 t1 t2 i1 j1 i2 j2 hcls hl1 hl2 hid h1 h2 hne hmay hmay'
    exact ⟨orderWalk_of_sections hcls hl1 hl2 hid h1 h2 hne hmay,
      orderWalk_of_sections hcls hl2 hl1 hid.symm h2 h1 hne.symm hmay'⟩

/-! ### Two entries with a critical section each -/

/-- Entry 0 runs nodes 1 to 3, entry 1 runs nodes 4 to 6; each acquires, accesses and releases. -/
def twoSectionsGraph : CCPG where
  nodes := [1, 2, 3, 4, 5, 6]
  type n := if n = 1 ∨ n = 4 then .acquire else if n = 3 ∨ n = 6 then .release else .assignment
  isCallSite n := n ≠ 2 ∧ n ≠ 5
  edges := [⟨1, 2, .order⟩, ⟨2, 3, .order⟩, ⟨4, 5, .order⟩, ⟨5, 6, .order⟩]
  mem_nodes := by decide

/-- Two entries without children. -/
def twoSectionsTree : ThreadCreationTree where
  ccpg := twoSectionsGraph
  threads := [0, 1]
  thread t := ⟨none, if t = 0 then 1 else 4, none, if t = 0 then [1, 2, 3] else [4, 5, 6], true,
    false, ""⟩
  parent_lt := nofun
  forkNode_inj _ _ ht := absurd rfl ht
  isKernelEntry_of_ne _ _ _ _ _ := rfl

/-- Both entries work on one lock. -/
def twoSections (env : LaceEnv) : HBInput where
  tree := twoSectionsTree
  filters := ⟨none, none⟩
  ir := ⟨fun _ => some ⟨none, [0]⟩, fun _ => none, fun v w => v = w, id, fun _ => .other⟩
  locks := [⟨1, 1, some 3⟩, ⟨2, 4, some 6⟩]
  id_inj := by decide
  mainFuncNode t := some (if t = 0 then 1 else 4)
  env := env
  rcuFamilies := [.vanilla, .bh, .sched, .srcu, .tasks]
  rcuFamilies_perm := HBInput.declared_families_perm
  rcuThreads _ := [0, 1]
  rcuThreads_perm _ := List.Perm.refl twoSectionsTree.threads

/-- The accesses of the two sections are ordered both ways. -/
theorem twoSections_ordReach_both :
    (twoSections ⟨none, none, false⟩).staticEvidence.ordReach 2 5 = true ∧
      (twoSections ⟨none, none, false⟩).staticEvidence.ordReach 5 2 = true := by
  decide

/-- A cap of two edges is too short for the hand-over. -/
theorem twoSections_capped :
    (∀ k, (twoSections ⟨some 2, none, false⟩).OrderWalk 2 k 5 → 2 < k) ∨
      ∀ k, (twoSections ⟨some 2, none, false⟩).OrderWalk 5 k 2 → 2 < k :=
  (ordReach_antisymm_iff (by decide) (by decide) (by decide)).1.mp (by decide)

end Lace.HBInput
