import Lace.LockSet.Run

/-!
# When the lockset is a must lockset

A lock is in the lockset of a node although some path to the node does not hold it in two ways.
The analysis comes to a node along one path, and it unites what its later predecessors hold with
that. And a release does nothing once the lock object has recorded a release on another branch.
Exactly where neither happens the lockset is a must lockset.

## Main definitions

* `LockProgram.MustLockset`: every lock of a lockset is held on every path.

## Main results

* `mustLockset_iff`: when the locksets are must locksets.
-/

namespace Lace.LockProgram

variable {P : LockProgram} {A : HeapLayout}

/-- When the analysis ends, a lock of the lockset of a node is held on every path to the node: an
aliasing acquire was executed and no aliasing release after it. -/
def MustLockset (P : LockProgram) (A : HeapLayout) : Prop :=
  ∀ f ∈ P.functions, ∀ n tr, P.Executes f n tr → ∀ i ∈ (P.build A).2 n, ∀ l,
    (P.build A).1[i]? = some l → P.HeldOn tr l.acquire

/-- A lock that stays in the lockset of a node which releases it is not held there. -/
theorem KeepsReleased.not_mustLockset
    (hkeeps : P.KeepsReleased (P.order A) (P.build A).1 (P.build A).2) : ¬P.MustLockset A := by
  obtain ⟨n, hn, i, hi, a, r, ha, hop, halias⟩ := hkeeps
  obtain ⟨l, hl, rfl⟩ := Option.map_eq_some_iff.mp ha
  obtain ⟨f, hf, hin⟩ := mem_order.mp hn
  obtain ⟨tr, htr⟩ := hin.exists_executes
  obtain ⟨tr', rfl⟩ := htr.exists_eq_append
  intro hmust
  have hheld := hmust f hf n _ htr i hi l hl
  rw [ops_eq, hop] at hheld
  exact not_heldOn_release halias hheld

/-- The locksets are must locksets exactly when no lock is given back at two nodes, and what is
held after a node, or after a predecessor processed no earlier, is held on every path to the
node. -/
theorem mustLockset_iff : P.MustLockset A ↔ P.GivenOnce A (P.order A) ∧
    ∀ f ∈ P.functions, ∀ n x a tr, P.Collects A (P.order A) n x → P.acquireAt x = some a →
      P.Executes f n tr → P.HeldOn tr a := by
  have hmem : ∀ f ∈ P.functions, ∀ n tr, P.Executes f n tr → n ∈ P.order A :=
    fun f hf n tr hpath => mem_order.mpr ⟨f, hf, hpath.inside⟩
  constructor
  · intro hmust
    rcases outcome_build (P := P) (A := A) with hinv | ⟨-, hkeeps⟩
    · refine ⟨hinv.once, fun f hf n x a tr hx ha hpath => ?_⟩
      obtain ⟨l, hl, hacq, -⟩ := hinv.locksAt.lock x hx.mem_acquired
      obtain rfl : a = l.acquire := Option.some.inj (ha.symm.trans hacq)
      have hset := (hinv.settled n (hmem f hf n tr hpath) _).mpr ⟨x, hx, rfl⟩
      exact hmust f hf n tr hpath _ hset l hl
    · exact absurd hmust hkeeps.not_mustLockset
  · rintro ⟨honce, hall⟩ f hf n tr hpath i hi l hl
    rcases outcome_build (P := P) (A := A) with hinv | ⟨htwice, -⟩
    · obtain ⟨x, hx, rfl⟩ := (hinv.settled n (hmem f hf n tr hpath) i).mp hi
      obtain ⟨l', hl', hacq, -⟩ := hinv.locksAt.lock x hx.mem_acquired
      obtain rfl : l = l' := Option.some.inj (hl.symm.trans hl')
      exact hall f hf n x _ tr hx hacq hpath
    · exact absurd honce htwice

/-! ### A lock that is released on both branches -/

/-- A program of one function with the nodes `nodes`, function node 0 and the `ORDER` edges
`edges`, where all operations work on one lock and nothing is called. -/
def flatProgram (type : NodeId → ThreadAPIType) (edges : List (NodeId × NodeId))
    (nodes : List NodeId) (hnodup : nodes.Nodup)
    (hmem : ∀ e ∈ edges, e.1 ∈ nodes ∧ e.2 ∈ nodes) : LockProgram where
  ccpg := ⟨nodes, type, fun _ => false, edges.map fun e => ⟨e.1, e.2, .order⟩,
    List.forall_mem_map.mpr hmem⟩
  ir := ⟨fun _ => some ⟨none, [0]⟩, fun _ => none, fun v w => v = w, id, fun _ => .other⟩
  functions := [⟨0, nodes, hnodup⟩]
  call_src := List.forall_mem_map.mpr fun _ _ h => by cases h
  disjoint := List.pairwise_singleton _ _

/-- Nodes and locks are allocated in the order of their numbers. -/
def addressOrder : HeapLayout := ⟨Int.toNat, id⟩

/-- Node 1 acquires, and each of its successors 2 and 3 releases. -/
def earlyUnlock : LockProgram :=
  flatProgram (fun n => if n = 1 then .acquire else if n = 2 ∨ n = 3 then .release else .otherCall)
    [(0, 1), (1, 2), (1, 3), (2, 4), (3, 4)] [0, 1, 2, 3, 4] (by decide) (by decide)

/-- The lock object records the release at node 2. So the release at node 3 leaves it in the
lockset, although the only path to node 3 acquires the lock and then releases it. -/
theorem earlyUnlock_not_mustLockset :
    0 ∈ (earlyUnlock.build addressOrder).2 3 ∧
    (earlyUnlock.build addressOrder).1[0]? = some ⟨1, 1, some 2⟩ ∧
    (∃ f ∈ earlyUnlock.functions, earlyUnlock.Executes f 3 [.acquire 1, .release 3]) ∧
    ¬earlyUnlock.HeldOn [.acquire 1, .release 3] 1 ∧ ¬earlyUnlock.MustLockset addressOrder := by
  have hset : 0 ∈ (earlyUnlock.build addressOrder).2 3 := by decide
  have hlock : (earlyUnlock.build addressOrder).1[0]? = some ⟨1, 1, some 2⟩ := by decide
  have hpath : earlyUnlock.Executes ⟨0, [0, 1, 2, 3, 4], by decide⟩ 3 [.acquire 1, .release 3] := by
    have h0 : earlyUnlock.Executes ⟨0, [0, 1, 2, 3, 4], by decide⟩ 0 [] := Executes.entry
    have h1 : earlyUnlock.Executes ⟨0, [0, 1, 2, 3, 4], by decide⟩ 1 [.acquire 1] :=
      h0.step (by decide)
    exact h1.step (by decide)
  have hnot : ¬earlyUnlock.HeldOn ([.acquire 1] ++ [.release 3]) 1 :=
    not_heldOn_release (by decide)
  exact ⟨hset, hlock, ⟨_, List.mem_singleton_self _, hpath⟩, hnot, fun hmust =>
    hnot (hmust _ (List.mem_singleton_self _) 3 _ hpath 0 hset _ hlock)⟩

end Lace.LockProgram
