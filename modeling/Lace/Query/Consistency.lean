import Lace.Query.Verifier

/-!
# Which contradictions the verifier confirms

A confirmed hypothesis may assert a predicate together with its opposite, since the evaluators do
not quantify over the same things: an asserted order is any path, an asserted absence of order is
about paths with a synchronization edge; a common lock is looked for in some pair of contexts, its
absence in some context.

## Main definitions

* `Hypothesis.Asserts`: a hypothesis has a constraint that is read as a predicate;
* `HypothesisVerifier.PlainOrderOnly`: a path, but none with a synchronization edge.

## Main results

* `evalHb_both_iff`, `evalNotLockProtected_and_evalSameLock_iff`: when two evaluators agree on
  opposites;
* `opposites_of_confirms`: what has to be the case where a confirmed hypothesis asserts opposites.
-/

namespace Lace

open Library

/-- `h` has a constraint that is read as `p`. -/
def Hypothesis.Asserts (h : Hypothesis) (p : Predicate) : Prop :=
  ∃ c ∈ h.constraints, h.predicateOf c = some p

instance (h : Hypothesis) (p : Predicate) : Decidable (h.Asserts p) :=
  inferInstanceAs (Decidable (∃ c ∈ h.constraints, h.predicateOf c = some p))

namespace HypothesisVerifier

variable {V : HypothesisVerifier} {h : Hypothesis} {a b : NodeId}

/-- A hypothesis is confirmed when every constraint evaluates to true. -/
theorem confirms_iff : V.Confirms h ↔ ∀ c ∈ h.constraints, V.evalConstraint h c = some true := by
  have hall : ∀ cs : List VerificationConstraint,
      (∃ rs, (cs.mapM fun c => (V.evalConstraint h c).map fun b =>
          (⟨c.predicate, b⟩ : ConstraintEvalResult)) = some rs ∧ rs.all (·.satisfied) = true) ↔
        ∀ c ∈ cs, V.evalConstraint h c = some true := by
    intro cs
    induction cs with
    | nil => simp
    | cons c cs ih =>
      rw [List.forall_mem_cons, ← ih, List.mapM_cons]
      generalize (cs.mapM fun c => (V.evalConstraint h c).map fun b =>
        (⟨c.predicate, b⟩ : ConstraintEvalResult)) = rest
      cases V.evalConstraint h c with
      | none => simp
      | some b => cases rest <;> cases b <;> simp
  rw [← hall, Confirms, verify]
  simp

/-- What a confirmed hypothesis asserts holds. -/
theorem eval_of_confirms (hv : V.Confirms h) {p : Predicate} (hp : h.Asserts p) :
    ∃ c, V.eval h c p = true := by
  obtain ⟨c, hc, hpc⟩ := hp
  have heval := confirms_iff.mp hv c hc
  rw [evalConstraint, hpc, Option.map_some, Option.some.injEq] at heval
  exact ⟨c, heval⟩

/-! ### Opposites -/

/-- The order queries follow a path from `a` to `b` within the cap, but none of them crosses a
synchronization edge, and that is required of the absence of an order. -/
def PlainOrderOnly (V : HypothesisVerifier) (a b : NodeId) : Prop :=
  V.hbRequireSyncEnabled = true ∧ ∃ G, V.hb = some G ∧ (a = b ∨ a ≠ b ∧
    (∃ k ≤ (envInt V.env.hbMaxDepth 16).toNat, Steps G.Step a k b) ∧
    ¬∃ k ≤ (envInt V.env.hbMaxDepth 16).toNat, Steps (G.SyncStep .allMechanisms) (a, false) k
      (b, true))

/-- Some context of `a` holds no lock. -/
def UnlockedSomewhere (V : HypothesisVerifier) (a : NodeId) : Prop :=
  [] ∈ V.allLocksetsFor a

/-- A context of `a` and one of `b` hold locks that alias. -/
def LockShared (V : HypothesisVerifier) (a b : NodeId) : Prop :=
  ∃ ls1 ∈ V.allLocksetsFor a, ∃ ls2 ∈ V.allLocksetsFor b, ∃ l1 ∈ ls1, ∃ l2 ∈ ls2,
    V.ir.isLockAlias (V.lockAcquire l1) (V.lockAcquire l2) = true

theorem shareLock_iff : V.shareLock a b = true ↔ V.LockShared a b := by
  simp only [shareLock, LockShared, List.any_eq_true]

/-- An order query without a synchronization edge, in terms of paths. -/
lemma hbReachable_plain_iff {G : HBGraph} (hab : a ≠ b) :
    G.hbReachable V.env a b 16 false .allMechanisms = true ↔
      ∃ k ≤ (envInt V.env.hbMaxDepth 16).toNat, Steps G.Step a k b := by
  rw [HBGraph.hbReachable_iff, if_neg hab]
  constructor
  · rintro ⟨k, c, hk, hsteps, -⟩
    exact ⟨k, hk, HBGraph.steps_forget hsteps⟩
  · rintro ⟨k, hk, hsteps⟩
    obtain ⟨c, hc⟩ : ∃ c, Steps (G.SyncStep .allMechanisms) (a, false) k (b, c) :=
      HBGraph.steps_exists_flag hsteps false
    exact ⟨k, c, hk, hc, by simp⟩

/-- The same with one. -/
lemma hbReachable_sync_iff {G : HBGraph} (hab : a ≠ b) :
    G.hbReachable V.env a b 16 true .allMechanisms = true ↔
      ∃ k ≤ (envInt V.env.hbMaxDepth 16).toNat, Steps (G.SyncStep .allMechanisms) (a, false) k
        (b, true) := by
  rw [HBGraph.hbReachable_iff, if_neg hab]
  constructor
  · rintro ⟨k, c, hk, hsteps, hc⟩
    obtain rfl : c = true := hc rfl
    exact ⟨k, hk, hsteps⟩
  · rintro ⟨k, hk, hsteps⟩
    exact ⟨k, true, hk, hsteps, fun _ => rfl⟩

/-- The two readings of an order differ exactly where there is a path and none with a
synchronization edge. -/
theorem ordered_differ_iff : V.ordered a b false = true ∧
    V.ordered a b V.hbRequireSyncEnabled = false ↔ V.PlainOrderOnly a b := by
  cases hsync : V.hbRequireSyncEnabled with
  | false => simp [PlainOrderOnly, hsync]
  | true =>
    cases hhb : V.hb with
    | none => simp [PlainOrderOnly, ordered, hhb]
    | some G =>
      simp only [PlainOrderOnly, ordered, hhb, hsync, true_and, Option.some.injEq,
        exists_eq_left', ← Bool.not_eq_true]
      by_cases hab : a = b
      · -- A node precedes itself, over no edge.
        simp [hab, HBGraph.hbReachable]
      · rw [hbReachable_plain_iff hab, hbReachable_sync_iff hab]
        simp [hab]

theorem evalHb_iff {expected : Bool} : V.evalHb a b expected = true ↔
    a ∈ V.ccpg.nodes ∧ b ∈ V.ccpg.nodes ∧
      V.ordered a b (!expected && V.hbRequireSyncEnabled) = expected := by
  by_cases ha : a ∈ V.ccpg.nodes
  · by_cases hb : b ∈ V.ccpg.nodes
    · simp [evalHb, V.ccpg.getNodeByID_of_mem ha, V.ccpg.getNodeByID_of_mem hb, ha, hb]
    · simp [evalHb, V.ccpg.getNodeByID_of_not_mem hb, hb]
  · simp [evalHb, V.ccpg.getNodeByID_of_not_mem ha, ha]

theorem evalConcurrent_iff : V.evalConcurrent a b = true ↔
    a ∈ V.ccpg.nodes ∧ b ∈ V.ccpg.nodes ∧ V.ordered a b V.hbRequireSyncEnabled = false ∧
      V.ordered b a V.hbRequireSyncEnabled = false ∧ V.evalSameLock a b = false := by
  by_cases ha : a ∈ V.ccpg.nodes
  · by_cases hb : b ∈ V.ccpg.nodes
    · simp only [evalConcurrent, V.ccpg.getNodeByID_of_mem ha, V.ccpg.getNodeByID_of_mem hb, ha, hb,
        true_and]
      cases V.ordered a b V.hbRequireSyncEnabled <;>
        cases V.ordered b a V.hbRequireSyncEnabled <;> simp
    · simp [evalConcurrent, V.ccpg.getNodeByID_of_not_mem hb, hb]
  · simp [evalConcurrent, V.ccpg.getNodeByID_of_not_mem ha, ha]

theorem evalSameLock_iff : V.evalSameLock a b = true ↔
    a ∈ V.ccpg.nodes ∧ b ∈ V.ccpg.nodes ∧ (V.LockShared a b ∨ V.surfaceSameLock a b = true) := by
  by_cases ha : a ∈ V.ccpg.nodes
  · by_cases hb : b ∈ V.ccpg.nodes
    · simp [evalSameLock, V.ccpg.getNodeByID_of_mem ha, V.ccpg.getNodeByID_of_mem hb, ha, hb,
        ← shareLock_iff]
    · simp [evalSameLock, V.ccpg.getNodeByID_of_not_mem hb, hb]
  · simp [evalSameLock, V.ccpg.getNodeByID_of_not_mem ha, ha]

theorem evalNotLockProtected_iff : V.evalNotLockProtected a = true ↔
    a ∈ V.ccpg.nodes ∧ V.UnlockedSomewhere a := by
  by_cases ha : a ∈ V.ccpg.nodes
  · simp only [evalNotLockProtected, V.ccpg.getNodeByID_of_mem ha, ha, true_and, UnlockedSomewhere,
      allLocksetsFor, CallStructure.allLocksetsFor]
    cases V.contextSet a with
    | nil =>
      rw [List.isEmpty_nil, if_pos rfl, if_pos rfl, List.isEmpty_iff, List.mem_singleton]
      exact eq_comm
    | cons ctx ctxs =>
      rw [List.isEmpty_cons, if_neg Bool.false_ne_true, if_neg Bool.false_ne_true,
        List.any_eq_true, List.mem_map]
      simp only [List.isEmpty_iff, lockSetAt]
  · simp [evalNotLockProtected, V.ccpg.getNodeByID_of_not_mem ha, ha]

/-! ### Confirmed hypotheses -/

/-- An order and its absence are both confirmed exactly where the order is a plain one. -/
theorem evalHb_both_iff : V.evalHb a b true = true ∧ V.evalHb a b false = true ↔
    a ∈ V.ccpg.nodes ∧ b ∈ V.ccpg.nodes ∧ V.PlainOrderOnly a b := by
  rw [evalHb_iff, evalHb_iff, ← ordered_differ_iff]
  simp only [Bool.not_true, Bool.false_and, Bool.not_false, Bool.true_and]
  tauto

/-- No lock in some context and a common lock in another are both confirmed. -/
theorem evalNotLockProtected_and_evalSameLock_iff :
    V.evalNotLockProtected a = true ∧ V.evalSameLock a b = true ↔
      a ∈ V.ccpg.nodes ∧ b ∈ V.ccpg.nodes ∧ V.UnlockedSomewhere a ∧
        (V.LockShared a b ∨ V.surfaceSameLock a b = true) := by
  rw [evalNotLockProtected_iff, evalSameLock_iff]
  tauto

/-- Opposites in a confirmed hypothesis. A common lock and concurrency exclude each other. An order
goes with its absence, or with concurrency, only where it is a plain one; and the absence of a lock
goes with a common lock only where one context of the node is unlocked and another shares a lock,
or the surface has the lock. -/
theorem opposites_of_confirms (V : HypothesisVerifier) (h : Hypothesis) (hv : V.Confirms h)
    (a b : NodeId) :
    ¬(h.Asserts (.sameLock a b) ∧ h.Asserts (.concurrent a b)) ∧
    (h.Asserts (.hb a b true) → h.Asserts (.hb a b false) → V.PlainOrderOnly a b) ∧
    (h.Asserts (.hb a b true) → h.Asserts (.concurrent a b) → V.PlainOrderOnly a b) ∧
    (h.Asserts (.notLockProtected a) → h.Asserts (.sameLock a b) →
      V.UnlockedSomewhere a ∧ (V.LockShared a b ∨ V.surfaceSameLock a b = true)) := by
  have heval := fun {p} => @eval_of_confirms V h hv p
  refine ⟨?_, ?_, ?_, ?_⟩
  · rintro ⟨hlock, hconc⟩
    obtain ⟨c, hlock⟩ := heval hlock
    obtain ⟨c', hconc⟩ := heval hconc
    -- Concurrency asks for no common lock.
    have hno := (evalConcurrent_iff.mp hconc).2.2.2.2
    rw [show V.evalSameLock a b = true from hlock] at hno
    exact Bool.noConfusion hno
  · intro htrue hfalse
    obtain ⟨c, htrue⟩ := heval htrue
    obtain ⟨c', hfalse⟩ := heval hfalse
    exact (evalHb_both_iff.mp ⟨htrue, hfalse⟩).2.2
  · intro htrue hconc
    obtain ⟨c, htrue⟩ := heval htrue
    obtain ⟨c', hconc⟩ := heval hconc
    -- The order holds without the flag, and fails with it.
    obtain ⟨-, -, hplain⟩ := evalHb_iff.mp htrue
    exact ordered_differ_iff.mp ⟨by simpa using hplain, (evalConcurrent_iff.mp hconc).2.2.1⟩
  · intro hnot hlock
    obtain ⟨c, hnot⟩ := heval hnot
    obtain ⟨c', hlock⟩ := heval hlock
    exact (evalNotLockProtected_and_evalSameLock_iff.mp ⟨hnot, hlock⟩).2.2

/-! ### A confirmed hypothesis with opposites -/

/-- Two paths of control flow, 1 to 2 and 3 to 4. -/
def twoPaths : CCPG where
  nodes := [1, 2, 3, 4]
  type _ := .dummy
  isCallSite _ := false
  edges := [⟨1, 2, .order⟩, ⟨3, 4, .order⟩]
  mem_nodes := by decide

/-- A single thread runs all four nodes. -/
def twoPathsThread : ThreadCreationTree where
  ccpg := twoPaths
  threads := [0]
  thread _ :=
    { parent := none
      forkNode := 0
      joinNode := none
      nodes := [1, 2, 3, 4]
      isKernelEntry := true
      isReentrant := false
      entryName := "" }
  parent_lt := nofun
  forkNode_inj _ _ h := absurd rfl h
  isKernelEntry_of_ne _ _ _ _ _ := rfl

/-- The function of nodes 3 and 4 is called with a lock held at node 5, and node 3 is also entered
without it. -/
def partlyLocked : HypothesisVerifier where
  tct := twoPathsThread
  filters := ⟨none, none⟩
  hb := some ⟨[⟨1, 2, .programOrder, "cfg"⟩, ⟨3, 4, .programOrder, "cfg"⟩]⟩
  surface := none
  ir :=
    { callInst := fun _ => some ⟨none, [0]⟩
      cpgNodeName := fun _ => none
      areAliases := fun _ _ => true
      stripPointerCasts := id
      kind := fun _ => .other }
  lockAddr := id
  lockAcquire _ := 6
  nodeLockSets n := if n = 5 then [0] else []
  contextSet n := if n = 3 then [[], [5]] else if n = 4 then [[5]] else []
  env := ⟨none, none, false⟩
  hbRequireSyncEnabled := true
  evalMemory _ _ := false

/-- An order with its absence and with concurrency, and no lock with a common lock. -/
def opposites : Hypothesis where
  id := "h"
  bugCategory := "data_race"
  nodes := [("a", 1), ("b", 2)]
  constraints :=
    [⟨"hb", [("a", .str "a"), ("b", .str "b"), ("expected", .bool true)]⟩,
      ⟨"hb", [("a", .str "a"), ("b", .str "b"), ("expected", .bool false)]⟩,
      ⟨"concurrent", [("a", .int 1), ("b", .int 2)]⟩,
      ⟨"not_lock_protected", [("node", .int 3)]⟩,
      ⟨"same_lock", [("node1", .int 3), ("node2", .int 4)]⟩]

/-- All of them are confirmed together. -/
theorem opposites_confirmed : partlyLocked.Confirms opposites ∧
    opposites.Asserts (.hb 1 2 true) ∧ opposites.Asserts (.hb 1 2 false) ∧
    opposites.Asserts (.concurrent 1 2) ∧
    opposites.Asserts (.notLockProtected 3) ∧ opposites.Asserts (.sameLock 3 4) := by
  decide +kernel

/-- The order from 1 to 2 is a plain one. -/
theorem opposites_plainOrderOnly : partlyLocked.PlainOrderOnly 1 2 :=
  (opposites_of_confirms partlyLocked opposites (by decide +kernel) 1 2).2.1
    (by decide +kernel) (by decide +kernel)

end HypothesisVerifier

end Lace
