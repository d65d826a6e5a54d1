import Lace.PhaseB.Selection

/-!
# The MHP gate for the second instance of a thread

An object that races with itself has a second instance of its root thread, under a synthetic id. The
gate of `composeVerdict` looks the ids of a pair up among the threads. A synthetic id has no thread,
and only the pair of the root with its own instance is treated apart.

## Main definitions

* `ComposeInput.Considers`: two threads of an object pass the gate;
* `ComposeInput.IsSibling`: a root with its second instance, and another thread of the object;
* `ComposeInput.RootPasses`: the root's own pair passes the gate.

## Main results

* `ComposeInput.considers_sibling`: the second instance is paired with every thread;
* `ComposeInput.sharesGate_iff`: when it is gated like the root.
-/

namespace Lace.PhaseB.ComposeInput

open Library

variable (X : ComposeInput)

/-- The pair of two threads of an object, the smaller one first. -/
def pairOf (O : ObjectRef) (oi : ℤ) (t u : Tid) : Pair := ⟨O, oi, min t u, max t u⟩

/-- `composeVerdict` gets past the gate for two threads of an object. -/
def Considers (O : ObjectRef) (t u : Tid) : Prop :=
  ∃ oi, pairOf O oi t u ∈ X.allPairs ∧ X.mhpGate (pairOf O oi t u) = true

/-- The object has the second instance of `root`, and `t` is a thread other than the two. -/
structure IsSibling (O : ObjectRef) (root t : Tid) : Prop where
  /-- The object is one of those that are composed. -/
  mem : some O ∈ X.objs
  /-- It has an index. -/
  index : (X.objIndex O).isSome = true
  /-- The root accesses it. -/
  root_mem : root ∈ (X.object O).accessingThreadIds.toList
  /-- So does the second instance. -/
  sibling_mem : siblingId root ∈ (X.object O).accessingThreadIds.toList
  /-- Its id is synthetic: there is no thread for it. -/
  synthetic : X.threadById (siblingId root) = none
  /-- The other thread accesses the object. -/
  other_mem : t ∈ (X.object O).accessingThreadIds.toList
  /-- It is not the root. -/
  other_ne : t ≠ root
  /-- It is not the second instance. -/
  other_ne_sibling : t ≠ siblingId root

/-- The gate lets the root and the thread pass: they are instances of one thread, one of them has
no thread, or the two may happen in parallel. -/
def RootPasses (O : ObjectRef) (root t : Tid) : Prop :=
  ((X.object O).isSelfRace = true ∧ (min root t).tmod 1000000 = (max root t).tmod 1000000) ∨
    X.threadById root = none ∨ X.threadById t = none ∨
      ∃ T1 ∈ X.threadById (min root t), ∃ T2 ∈ X.threadById (max root t),
        X.tct.mayHappenInParallel X.filters T1 T2 = true

variable {X} {O : ObjectRef} {oi : ℤ} {t u root : Tid}

/-- Every two threads of a composed object are a pair. -/
theorem isPair_pairOf (hmem : some O ∈ X.objs) (hindex : X.objIndex O = some oi)
    (ht : t ∈ (X.object O).accessingThreadIds.toList)
    (hu : u ∈ (X.object O).accessingThreadIds.toList) (hne : t ≠ u) :
    X.IsPair (pairOf O oi t u) where
  mem := hmem
  index := hindex
  mem1 := by
    rcases min_choice t u with h | h
    · rwa [pairOf, h]
    · rwa [pairOf, h]
  mem2 := by
    rcases max_choice t u with h | h
    · rwa [pairOf, h]
    · rwa [pairOf, h]
  lt := min_lt_max.mpr hne

theorem considers_iff (hmem : some O ∈ X.objs) (hindex : X.objIndex O = some oi)
    (ht : t ∈ (X.object O).accessingThreadIds.toList)
    (hu : u ∈ (X.object O).accessingThreadIds.toList) (hne : t ≠ u) :
    X.Considers O t u ↔ X.mhpGate (pairOf O oi t u) = true := by
  constructor
  · rintro ⟨oi', hpair, hgate⟩
    obtain rfl : oi' = oi := Option.some.inj ((mem_allPairs_iff.mp hpair).index.symm.trans hindex)
    exact hgate
  · exact fun hgate => ⟨oi, mem_allPairs_iff.mpr (isPair_pairOf hmem hindex ht hu hne), hgate⟩

/-- A thread without a `Thread` passes the gate with every other one. -/
theorem mhpGate_of_none (h : X.threadById t = none) : X.mhpGate (pairOf O oi t u) = true := by
  rw [mhpGate, Bool.or_eq_true]
  refine Or.inr ?_
  rcases le_total t u with htu | hut
  · rw [pairOf, min_eq_left htu, h]
  · rw [pairOf, max_eq_left hut, h]
    split
    · rename_i heq
      cases heq
    · rfl

/-- What the gate asks of the root and another thread. -/
theorem mhpGate_iff_rootPasses :
    X.mhpGate (pairOf O oi root t) = true ↔ X.RootPasses O root t := by
  rw [RootPasses, mhpGate, Bool.or_eq_true, selfRace, Bool.and_eq_true, decide_eq_true_eq, pairOf]
  refine or_congr_right ?_
  -- Whichever of the two is the smaller one, a lookup that fails lets the pair pass.
  rcases le_total root t with h | h
  · rw [min_eq_left h, max_eq_right h]
    cases X.threadById root <;> cases X.threadById t <;> simp
  · rw [min_eq_right h, max_eq_left h]
    cases X.threadById root <;> cases X.threadById t <;> simp

/-- The second instance is paired with every other thread of the object. -/
theorem considers_sibling (h : X.IsSibling O root t) : X.Considers O (siblingId root) t := by
  obtain ⟨oi, hoi⟩ := Option.isSome_iff_exists.mp h.index
  exact (considers_iff h.mem hoi h.sibling_mem h.other_mem h.other_ne_sibling.symm).mpr
    (mhpGate_of_none h.synthetic)

/-- The second instance of a root is gated like the root exactly for the threads with which the root
passes the gate. -/
theorem sharesGate_iff (X : ComposeInput) (O : ObjectRef) (root t : Tid)
    (h : X.IsSibling O root t) :
    (X.Considers O (siblingId root) t ↔ X.Considers O root t) ↔ X.RootPasses O root t := by
  obtain ⟨oi, hoi⟩ := Option.isSome_iff_exists.mp h.index
  rw [considers_iff h.mem hoi h.root_mem h.other_mem h.other_ne.symm, mhpGate_iff_rootPasses,
    iff_true_left (considers_sibling h)]

/-! ### A handler and the exit of its module -/

/-- A handler that may race with itself, and the exit of its module. -/
def handlerAndExit : ThreadCreationTree :=
  { declaredEntries with
    thread := fun t =>
      { declaredEntries.thread t with
        entryName := if t = 0 then "drv_open" else "drv_exit" }
    parent_lt := nofun
    forkNode_inj := fun _ _ h => absurd rfl h
    isKernelEntry_of_ne := fun _ _ _ _ _ => rfl }

/-- A counter that both handlers write, with a second instance of the first one. -/
def selfRacingCounter : SurfaceObject where
  name := "count"
  accesses :=
    [⟨⟨1, .write, 10, "count++", false, ""⟩, "drv_open", "drv_open", "drv.c:10"⟩,
      ⟨⟨2, .write, 20, "count = 0", false, ""⟩, "drv_exit", "drv_exit", "drv.c:20"⟩,
      ⟨⟨1000001, .write, 10, "[self-race: concurrent instance] count++", false, ""⟩, "drv_open",
        "drv_open", "drv.c:10"⟩]
  accessingThreadIds := ⟨[1, 2, 1000001], by decide⟩
  hasFreeOperation := false
  hasScalarTornAccess := false
  hasListMutation := false
  isSelfRace := true
  riskScore := 0

/-- The counter, with thread objects for the two handlers. -/
def handlerAndExitInput (filters : EntryFilters) : ComposeInput where
  tct := handlerAndExit
  filters := filters
  threadById t := if t = 1 then some 0 else if t = 2 then some 1 else none
  contractsByTid _ := none
  object _ := selfRacingCounter
  objIndex O := if O = 0 then some 0 else none
  objs := [some 0]
  keepLow := false
  env := ⟨false, false, false, false, none, none, none, none⟩

theorem isSibling_handlerAndExitInput (filters : EntryFilters) :
    (handlerAndExitInput filters).IsSibling 0 1 2 where
  mem := List.mem_singleton_self _
  index := rfl
  root_mem := show (1 : Tid) ∈ selfRacingCounter.accessingThreadIds.toList by decide
  sibling_mem := show siblingId 1 ∈ selfRacingCounter.accessingThreadIds.toList by decide
  synthetic := rfl
  other_mem := show (2 : Tid) ∈ selfRacingCounter.accessingThreadIds.toList by decide
  other_ne := by decide
  other_ne_sibling := by decide

/-- The counter in manual entry mode, with both handlers declared. -/
def declaredHandlers : ComposeInput := handlerAndExitInput ⟨some fun _ => true, none⟩

/-- The counter in automatic mode. -/
def foundHandlers : ComposeInput := handlerAndExitInput ⟨none, none⟩

/-- Declared handlers count as parallel, and so do the second instance and the exit. -/
theorem declaredHandlers_sharesGate :
    declaredHandlers.Considers 0 (siblingId 1) 2 ↔ declaredHandlers.Considers 0 1 2 :=
  (sharesGate_iff declaredHandlers 0 1 2 (isSibling_handlerAndExitInput _)).mpr
    (Or.inr (Or.inr (Or.inr ⟨0, rfl, 1, rfl, by decide +kernel⟩)))

/-- In automatic mode a handler and the exit are never parallel, but the second instance of the
handler becomes a candidate with the exit. -/
theorem foundHandlers_not_sharesGate :
    foundHandlers.composePair (pairOf 0 0 1 2) = .skipped ∧
      foundHandlers.composePair (pairOf 0 0 (siblingId 1) 2) =
        .candidate (foundHandlers.candidate (pairOf 0 0 (siblingId 1) 2)) ∧
      ¬(foundHandlers.Considers 0 (siblingId 1) 2 ↔ foundHandlers.Considers 0 1 2) := by
  have hsibling : foundHandlers.IsSibling 0 1 2 := isSibling_handlerAndExitInput _
  refine ⟨by decide +kernel, by decide +kernel, fun h => ?_⟩
  have hroot := h.mp (considers_sibling hsibling)
  rw [considers_iff hsibling.mem rfl hsibling.root_mem hsibling.other_mem
    hsibling.other_ne.symm] at hroot
  exact absurd hroot (by decide +kernel)

end Lace.PhaseB.ComposeInput
