import Lace.LLM.Json
import Lace.PhaseB.BudgetedSessions
import Lace.PhaseB.Siblings
import Lace.PhaseB.SurfaceBudget
import Lace.Surface.Generate

/-!
# The recall floor

From the surface to the candidates of phase B: the triage of the objects by a model, the budget of
the surface, the sessions, and the enumeration of a session. The model may ask for any objects, in
any number of calls, or fail; objects that carry a lifecycle stay all the same. What a session makes
of them depends on the threads and the contracts alone.

## Main definitions

* `TriageContext.executeTool`, `SelectionRun.selectObjects`: the triage;
* `SelectionRun`: what selects the objects and makes the sessions;
* `SelectionRun.compose`: the enumeration of a session;
* `SelectionRun.Examined`: what becomes of two threads of an object;
* `SelectionRun.ReachesPhaseB`: what becomes of a conflict on the surface.

## Main results

* `SelectionRun.mem_objKeep_of_forced`: an object that carries a lifecycle stays;
* `SelectionRun.reachesPhaseB_of_forced`: its conflicts come to phase B;
* `SelectionRun.free_reachesPhaseB`: so does every free that meets an access of another thread.
-/

namespace Lace.PhaseB

open Library LLM

/-! ### Triage -/

/-- `TriageContext`, for `n` objects. -/
structure TriageContext (n : ℕ) where
  /-- `analyze`: the objects that the model keeps. -/
  analyze : Finset (Fin n) := ∅
  /-- `got`. -/
  got : Bool := false
  deriving DecidableEq

/-- `execute_tool`: the effect of a call on the context. -/
def TriageContext.executeTool {n : ℕ} (ctx : TriageContext n) (call : String × Json) :
    TriageContext n :=
  if call.1 ≠ "submit_triage" then ctx
  else
    -- Numbers that are no position of an object are ignored, and so is what is no number.
    let ids := (((call.2.field "analyze").bind Json.asArray).getD []).filterMap Json.asInteger
    { analyze := ctx.analyze ∪ Finset.univ.filter fun i : Fin n => (i : ℤ) ∈ ids
      got := true }

/-- What selects the objects and makes the sessions. -/
structure SelectionRun extends SurfaceBudget where
  /-- `LACE_DISABLE_OBJECT_TRIAGE` is not set. -/
  triageOn : Bool
  /-- The calls of the model, one after the other. -/
  dialogue : List (String × Json)
  /-- `send_message` throws in the end. -/
  failed : Bool
  /-- `LACE_SESSION_CAP`. -/
  sessionCapVar : Option ℤ
  /-- `LACE_DISABLE_SESSION_BUDGET`, if it is set. -/
  sessionDisableVar : Option (List Char)

namespace SelectionRun

variable (R : SelectionRun)

/-- The context after the dialogue. -/
def context : TriageContext R.surface.sharedObjects.length :=
  R.dialogue.foldl TriageContext.executeTool {}

/-- `selectObjects`: the objects that the triage keeps: all, unless it answered. -/
def selectObjects : Finset R.Index :=
  if R.failed || !R.context.got || R.context.analyze = ∅ then Finset.univ
  else R.context.analyze ∪ Finset.univ.filter fun i => forceKeepObject (R.object i) = true

/-- The objects after the triage, which is left out for a small surface. -/
def triaged : Finset R.Index :=
  if R.triageOn && 8 < R.surface.sharedObjects.length then R.selectObjects else Finset.univ

/-- `objKeep`, after the budget of the surface. -/
def objKeep : Finset R.Index := R.applyCostFirstSurfaceBudget R.triaged

/-- The budget of the sessions. -/
def sessionBudget : SessionBudget where
  surface := R.surface
  flowPrior := R.flowPrior
  sessionCapVar := R.sessionCapVar
  disableVar := R.sessionDisableVar

/-- The positions of the objects that stay, as the clusters read them. -/
def keptIds : List ℤ :=
  ((List.finRange _).filter fun i : R.Index => i ∈ R.objKeep).map fun i => (i.val : ℤ)

/-- `sessions`: the sessions over the objects that are kept. -/
def sessions : List Session := R.sessionBudget.sessions R.keptIds

/-- What `composeVerdict` reads for a session: its objects are those of the surface, and the rest
is as for the others. -/
def compose (base : ComposeInput) (s : Session) : ComposeInput :=
  { base with
    object := fun O =>
      (R.surface.sharedObjects.getD O (plainObject ⟨[], TidSet.sorted_nil⟩ false 0)).toSurfaceObject
    objIndex := fun O => if O < R.surface.sharedObjects.length then some (O : ℤ) else none
    objs := s.objects.map some }

/-- The sessions are as many as the cap allows. -/
def CapReached : Prop :=
  R.sessionBudget.sessionBudgetEnabled = true ∧ R.sessions.length = R.sessionBudget.cap

/-- What becomes of two threads of an object in phase B: they are enumerated, and unless they do not
run in parallel, or the contracts discharge the pair, they are a candidate. -/
structure Examined (X : ComposeInput) (O : ObjectRef) (t u : Tid) : Prop where
  /-- The pair is enumerated. -/
  enumerated : ComposeInput.pairOf O O t u ∈ X.allPairs
  /-- It is a candidate, under a key that the verdict lists. -/
  candidate : X.mhpGate (ComposeInput.pairOf O O t u) = true →
    X.dischargedPair (ComposeInput.pairOf O O t u) = false →
      (∃ c ∈ X.raw, c.object = O ∧ (c.reqT = t ∧ c.violT = u ∨ c.reqT = u ∧ c.violT = t)) ∧
        ∃ c ∈ X.candidates, c.key = (X.candidate (ComposeInput.pairOf O O t u)).key

/-- What becomes of two threads of an object: one session examines them, unless the cap cuts it. -/
def ReachesPhaseB (O : ObjectRef) (t u : Tid) : Prop :=
  (∃ s ∈ R.sessions, O ∈ s.objects ∧ (∀ s' ∈ R.sessions, O ∈ s'.objects → s' = s) ∧
    ∀ base, Examined (R.compose base s) O t u) ∨ R.CapReached

variable {R} {i : R.Index} {O : ObjectRef} {o : RatedObject}

/-! ### The objects that stay -/

/-- Triage keeps what carries a lifecycle, whatever the model says. -/
theorem mem_triaged_of_forced (h : forceKeepObject (R.object i) = true) : i ∈ R.triaged := by
  rw [triaged, selectObjects]
  split_ifs
  · exact Finset.mem_univ i
  · exact Finset.mem_union_right _ (Finset.mem_filter.mpr ⟨Finset.mem_univ i, h⟩)
  · exact Finset.mem_univ i

/-- So does the budget of the surface. -/
theorem mem_objKeep_of_forced (h : forceKeepObject (R.object i) = true) : i ∈ R.objKeep := by
  rw [objKeep]
  cases happlies : R.applies R.triaged with
  | true =>
    rw [SurfaceBudget.applyCostFirstSurfaceBudget_of_applies happlies]
    exact SurfaceBudget.mem_reduced.mpr
      (SurfaceBudget.inv_order.forced i (SurfaceBudget.mem_order.mpr (mem_triaged_of_forced h)) h)
  | false =>
    rw [SurfaceBudget.applyCostFirstSurfaceBudget_of_not_applies happlies]
    exact mem_triaged_of_forced h

theorem mem_keptIds_of_forced (ho : R.surface.sharedObjects[O]? = some o)
    (h : forceKeepObject o = true) : (O : ℤ) ∈ R.keptIds := by
  obtain ⟨hlt, hget⟩ := List.getElem?_eq_some_iff.mp ho
  have hobject : R.object ⟨O, hlt⟩ = o := hget
  refine List.mem_map.mpr ⟨⟨O, hlt⟩, List.mem_filter.mpr ⟨List.mem_finRange _, ?_⟩, rfl⟩
  exact decide_eq_true (mem_objKeep_of_forced (by rw [hobject, h]))

/-! ### The session of an object -/

end SelectionRun

namespace SessionBudget

variable {B : SessionBudget} {C : ClusterMap} {n : ℕ} {O : ObjectRef}

/-- An object of a cluster is in a session, unless the cap cuts its chunk. -/
theorem exists_session_or_cap (hn : 0 < n) {c : Cluster} (hc : c ∈ C.entries) (hO : O ∈ c.2) :
    (∃ s ∈ B.buildBudgetedSessions C n, O ∈ s.objects ∧ s.threads = c.1) ∨
      B.sessionBudgetEnabled = true ∧ (B.buildBudgetedSessions C n).length = B.cap := by
  obtain ⟨objs, hobjs, hmem⟩ := (exists_mem_chunks_iff hn).mpr (mem_ranked.mpr hO : O ∈ B.sorted c.2)
  have hch : B.chunkOf c.1 objs ∈ B.allChunks C n := mem_allChunks_iff.mpr ⟨c, hc, objs, hobjs, rfl⟩
  by_cases hin : (B.chunkOf c.1 objs).session ∈ B.buildBudgetedSessions C n
  · exact Or.inl ⟨_, hin, hmem, rfl⟩
  · -- The chunk is behind the limit, which therefore is the cap.
    refine Or.inr ?_
    have hlength := length_buildBudgetedSessions (B := B) (C := C) (n := n)
    have hlt : (B.buildBudgetedSessions C n).length < (B.allChunks C n).length := by
      -- With room for every chunk this one would be a session.
      by_contra hle
      apply hin
      refine mem_buildBudgetedSessions_iff.mpr ⟨_, ?_, rfl⟩
      rw [List.take_of_length_le]
      · exact mem_ranked.mpr hch
      · have hlimit : (B.buildBudgetedSessions C n).length =
            B.limit (ranked Chunk.better (B.allChunks C n)) := by
          simp only [buildBudgetedSessions, List.length_map, List.length_take]
          exact min_eq_left (limit_le _)
        rw [length_ranked, ← hlimit]
        exact not_lt.mp hle
    -- Only the cap of an enabled budget leaves a chunk out.
    cases henabled : B.sessionBudgetEnabled with
    | false =>
      rw [henabled] at hlength
      exact absurd hlength hlt.ne
    | true =>
      rw [henabled, if_pos rfl] at hlength
      refine ⟨rfl, hlength.trans (min_eq_left ?_)⟩
      by_contra hcap
      rw [min_eq_right (not_le.mp hcap).le] at hlength
      exact hlt.ne hlength

end SessionBudget

/-! ### The pairs of a session -/

namespace ComposeInput

variable {X : ComposeInput} {O : ObjectRef} {oi : ℤ} {t u : Tid} {p : Pair}

/-- The candidate of a pair is about its two threads. -/
theorem threads_candidate : (X.candidate p).reqT = p.t1 ∧ (X.candidate p).violT = p.t2 ∨
    (X.candidate p).reqT = p.t2 ∧ (X.candidate p).violT = p.t1 := by
  have hreported : ∀ r, X.reported p = some r → r.2 = (p.t1, p.t2) ∨ r.2 = (p.t2, p.t1) := by
    intro r hr
    unfold reported at hr
    split at hr
    next => exact Or.inl (by rw [← Option.some.inj hr])
    next =>
      split at hr
      next => exact Or.inl (by rw [← Option.some.inj hr])
      next => exact Or.inr (by rw [← Option.some.inj hr])
    next =>
      obtain ⟨h, -, rfl⟩ := Option.map_eq_some_iff.mp hr
      exact Or.inr rfl
  cases hr : X.reported p with
  | none => exact Or.inl (by simp [candidate, hr])
  | some r =>
    rcases hreported r hr with h | h
    · exact Or.inl (by simp [candidate, hr, h])
    · exact Or.inr (by simp [candidate, hr, h])

theorem threads_pairOf (O : ObjectRef) (oi : ℤ) (t u : Tid) :
    (pairOf O oi t u).t1 = t ∧ (pairOf O oi t u).t2 = u ∨
      (pairOf O oi t u).t1 = u ∧ (pairOf O oi t u).t2 = t := by
  rcases le_total t u with h | h
  · exact Or.inl ⟨min_eq_left h, max_eq_right h⟩
  · exact Or.inr ⟨min_eq_right h, max_eq_left h⟩

theorem conflict_comm (k1 k2 : AccKind) : conflict k1 k2 = conflict k2 k1 := by
  rw [conflict, conflict, Bool.and_comm k1.touch, Bool.or_comm k1.mutates]

/-- A pair with a free is only discharged by a mechanism that is no lock, where it is trusted. -/
theorem trusted_of_dischargedPair (h : X.dischargedPair p = true)
    (hfree : (X.kind p p.t1).free = true ∨ (X.kind p p.t2).free = true) :
    X.hardDischarge p = true ∧ X.env.trustHardNonLockDischarge = true := by
  have hlock : X.lockDischarge p = false := by
    rcases hfree with h | h <;> simp [lockDischarge, h]
  simp only [dischargedPair, hlock, Bool.not_false, Bool.and_true, Bool.false_or,
    Bool.and_eq_true, Bool.not_eq_true', Bool.and_eq_false_iff] at h
  obtain ⟨-, hhard, hkeep⟩ := h
  refine ⟨hhard, ?_⟩
  rcases hkeep with hnot | htrust
  · rw [hhard] at hnot
    cases hnot
  · simpa using htrust

end ComposeInput

namespace SelectionRun

open ComposeInput

variable {R : SelectionRun} {O : ObjectRef} {o : RatedObject} {t u : Tid}

theorem object_compose (ho : R.surface.sharedObjects[O]? = some o) (base : ComposeInput)
    (s : Session) : (R.compose base s).object O = o.toSurfaceObject := by
  simp [compose, List.getD_eq_getElem?_getD, ho]

/-- What a thread does with an object is what its accesses are. -/
theorem touch_threadAccessKind {o : SurfaceObject} {a : AccessSite} (ha : a ∈ o.accesses) :
    (o.threadAccessKind a.threadId).touch = true ∧
      (a.isWrite = true → (o.threadAccessKind a.threadId).mutates = true) ∧
        (a.accessType = .free → (o.threadAccessKind a.threadId).free = true) := by
  have hmem : a ∈ o.accessesOf a.threadId := List.mem_filter.mpr ⟨ha, by simp⟩
  have hread : a.accessType = .read → (o.threadAccessKind a.threadId).read = true :=
    fun h => List.any_eq_true.mpr ⟨a, hmem, by simp [h]⟩
  have hwrite : a.accessType = .write → (o.threadAccessKind a.threadId).write = true :=
    fun h => List.any_eq_true.mpr ⟨a, hmem, by simp [h]⟩
  have hfree : a.accessType = .free → (o.threadAccessKind a.threadId).free = true :=
    fun h => List.any_eq_true.mpr ⟨a, hmem, by simp [h]⟩
  refine ⟨?_, ?_, hfree⟩
  · cases hk : a.accessType with
    | read => simp [AccKind.touch, hread hk]
    | write => simp [AccKind.touch, hwrite hk]
    | free => simp [AccKind.touch, hfree hk]
  · intro hmut
    rw [AccessSite.isWrite, Bool.or_eq_true, decide_eq_true_eq, decide_eq_true_eq] at hmut
    rcases hmut with hk | hk
    · simp [AccKind.mutates, hwrite hk]
    · simp [AccKind.mutates, hfree hk]

/-- A session lists the conflicts of an object that carries a lifecycle. -/
theorem isPair_of_accesses (ho : R.surface.sharedObjects[O]? = some o) (hwell : o.WellFormed)
    {a b : AccessSite} (ha : a ∈ o.accesses) (hb : b ∈ o.accesses) (hne : a.threadId ≠ b.threadId)
    {s : Session} (hs : O ∈ s.objects) (base : ComposeInput) :
    (R.compose base s).IsPair (pairOf O O a.threadId b.threadId) := by
  have hobject := object_compose ho base s
  have hindex : (R.compose base s).objIndex O = some (O : ℤ) :=
    if_pos (List.getElem?_eq_some_iff.mp ho).1
  refine isPair_pairOf (List.mem_map_of_mem hs) hindex ?_ ?_ hne
  · rw [hobject]
    exact (hwell.ids _).mpr ⟨a, ha, rfl⟩
  · rw [hobject]
    exact (hwell.ids _).mpr ⟨b, hb, rfl⟩

/-- It has to review them if they may run in parallel and the contracts do not discharge them. -/
theorem reviewed_of_forced (ho : R.surface.sharedObjects[O]? = some o) (hwell : o.WellFormed)
    (hforced : forceKeepObject o = true) {a b : AccessSite} (ha : a ∈ o.accesses)
    (hb : b ∈ o.accesses) (hne : a.threadId ≠ b.threadId) (hmut : a.isWrite = true) {s : Session}
    (hs : O ∈ s.objects) (base : ComposeInput)
    (hgate : (R.compose base s).mhpGate (pairOf O O a.threadId b.threadId) = true)
    (hdis : (R.compose base s).dischargedPair (pairOf O O a.threadId b.threadId) = false) :
    (R.compose base s).Reviewed (pairOf O O a.threadId b.threadId) := by
  have hobject := object_compose ho base s
  have hkind : ∀ x, (R.compose base s).kind (pairOf O O a.threadId b.threadId) x =
      o.toSurfaceObject.threadAccessKind x := by
    intro x
    rw [ComposeInput.kind, show (pairOf O O a.threadId b.threadId).object = O from rfl, hobject]
  have hconf : conflict (o.toSurfaceObject.threadAccessKind a.threadId)
      (o.toSurfaceObject.threadAccessKind b.threadId) = true := by
    obtain ⟨htouch, hmutates, -⟩ := touch_threadAccessKind ha
    simp [conflict, htouch, (touch_threadAccessKind hb).1, hmutates hmut]
  refine ⟨isPair_of_accesses ho hwell ha hb hne hs base, hgate, ?_, hdis, ?_⟩
  · rw [hkind, hkind]
    rcases threads_pairOf O O a.threadId b.threadId with h | h
    · rw [h.1, h.2, hconf]
    · rw [h.1, h.2, conflict_comm, hconf]
  · -- What carries a lifecycle is not suppressible.
    have hsup : o.toSurfaceObject.suppressible = false := by
      simp only [forceKeepObject, Bool.or_eq_true] at hforced
      rcases hforced with (h | h) | h <;> simp [SurfaceObject.suppressible, h]
    rw [suppressedPair, show (pairOf O O a.threadId b.threadId).object = O from rfl, hobject, hsup]
    simp

/-- A session examines the conflicts of an object that carries a lifecycle. -/
theorem examined_of_forced (ho : R.surface.sharedObjects[O]? = some o) (hwell : o.WellFormed)
    (hforced : forceKeepObject o = true) {a b : AccessSite} (ha : a ∈ o.accesses)
    (hb : b ∈ o.accesses) (hne : a.threadId ≠ b.threadId) (hmut : a.isWrite = true) {s : Session}
    (hs : O ∈ s.objects) (base : ComposeInput) :
    Examined (R.compose base s) O a.threadId b.threadId := by
  refine ⟨mem_allPairs_iff.mpr (isPair_of_accesses ho hwell ha hb hne hs base),
    fun hgate hdis => ?_⟩
  have hreviewed := reviewed_of_forced ho hwell hforced ha hb hne hmut hs base hgate hdis
  refine ⟨⟨_, mem_raw_iff.mpr ⟨_, hreviewed, rfl⟩, rfl, ?_⟩,
    mem_key_candidates_iff.mpr ⟨_, hreviewed, rfl⟩⟩
  rcases threads_pairOf O O a.threadId b.threadId with h | h
  · rcases threads_candidate (X := R.compose base s) (p := pairOf O O a.threadId b.threadId)
      with hc | hc
    · exact Or.inl ⟨hc.1.trans h.1, hc.2.trans h.2⟩
    · exact Or.inr ⟨hc.1.trans h.2, hc.2.trans h.1⟩
  · rcases threads_candidate (X := R.compose base s) (p := pairOf O O a.threadId b.threadId)
      with hc | hc
    · exact Or.inr ⟨hc.1.trans h.1, hc.2.trans h.2⟩
    · exact Or.inl ⟨hc.1.trans h.2, hc.2.trans h.1⟩

/-- The conflicts of an object that carries a lifecycle come to phase B. -/
theorem reachesPhaseB_of_forced (ho : R.surface.sharedObjects[O]? = some o) (hwell : o.WellFormed)
    (hforced : forceKeepObject o = true) {a b : AccessSite} (ha : a ∈ o.accesses)
    (hb : b ∈ o.accesses) (hne : a.threadId ≠ b.threadId) (hmut : a.isWrite = true) :
    R.ReachesPhaseB O a.threadId b.threadId := by
  -- The object is in the cluster of its threads.
  have hclustered : VulnerabilitySurface.clustered R.keptIds o O = true := by
    have hcount : ¬o.accessingThreadIds.toList.length < 2 := not_lt.mpr hwell.shared
    simp [VulnerabilitySurface.clustered, mem_keptIds_of_forced ho hforced, hcount]
  have hmem : O ∈ (R.surface.clusters R.keptIds).entries.flatMap Prod.snd := by
    have hperm : ((R.surface.clusters R.keptIds).entries.flatMap Prod.snd).Perm
        ((R.surface.clusterEntries R.keptIds).flatMap Prod.snd) :=
      flatMap_mergeByKey_perm (by intro _ _; rfl) _
    rw [hperm.mem_iff, VulnerabilitySurface.flatMap_clusterEntries]
    refine List.mem_map.mpr ⟨(o, O), List.mem_filter.mpr ⟨?_, hclustered⟩, rfl⟩
    exact List.mk_mem_zipIdx_iff_getElem?.mpr ho
  obtain ⟨c, hc, hO⟩ := List.mem_flatMap.mp hmem
  rcases SessionBudget.exists_session_or_cap (B := R.sessionBudget) (n := 10) (by decide) hc hO
    with ⟨s, hs, hOs, -⟩ | hcap
  · refine Or.inl ⟨s, hs, hOs, fun s' hs' hOs' => ?_, fun base => ?_⟩
    · by_contra hdiff
      have hdisjoint := (R.sessionBudget.disjoint_sessions R.keptIds).forall hs' hs hdiff
      exact hdisjoint O hOs' hOs
    · exact examined_of_forced ho hwell hforced ha hb hne hmut hOs base
  · exact Or.inr hcap

/-- The free of an access and another access meet: they have one key, or the free is that of the
struct of a field. Published keys are left aside. -/
inductive FreeMeets (I : SurfaceInput) (f b : RawAccess) : Prop
  /-- The two have one key. -/
  | key (hkey : f.key = b.key) (hne : f.thread ≠ b.thread) (hlive : ¬I.PublishedKey f.key)
  /-- The struct of the field is freed, by a thread that does not access the field. -/
  | field (hstruct : f.key.kind = .structField) (hoffset : f.key.fieldOffset = 0)
      (hkind : b.key.kind = .structField) (hfield : b.key.fieldOffset ≠ 0)
      (htype : f.key.typeName = b.key.typeName)
      (hapart : ∀ c ∈ I.rawAccesses, c.key = b.key → c.thread ≠ f.thread)
      (hlive : I.setupRoot f.thread = false ∨ ¬I.PublishedKey b.key)

/-- The free and the other access are on the object, the free as itself or as a copy at its node. -/
structure MeetOn (I : SurfaceInput) (f b : RawAccess) (o : RatedObject) : Prop where
  /-- The object is freed. -/
  freed : o.hasFreeOperation = true
  /-- The free is on it. -/
  free : ∃ x ∈ o.accesses, x.accessType = .free ∧ x.nodeId = f.nodeId ∧ x.threadId = f.thread
  /-- The other access is on it. -/
  access : I.site b ∈ o.accesses
  /-- The two are of different threads. -/
  ne : f.thread ≠ b.thread

/-- A free and an access that meet are on an object of the surface. -/
theorem exists_meetOn {I : SurfaceInput} (hS : I.Generates R.surface) {f b : RawAccess}
    (hf : f ∈ I.rawAccesses) (hfree : f.isFree = true) (hb : b ∈ I.rawAccesses)
    (hmeet : FreeMeets I f b) :
    ∃ (O : ObjectRef) (o : RatedObject), R.surface.sharedObjects[O]? = some o ∧ MeetOn I f b o := by
  obtain ⟨f', hf', hnode, hthread, hne, o, ho, hsf, hsb, hfreed⟩ : ∃ f' : RawAccess,
      f'.isFree = true ∧ f'.nodeId = f.nodeId ∧ f'.thread = f.thread ∧ f.thread ≠ b.thread ∧
        ∃ o ∈ R.surface.sharedObjects,
          I.site f' ∈ o.accesses ∧ I.site b ∈ o.accesses ∧ o.hasFreeOperation = true := by
    cases hmeet with
    | key hkey hne hlive =>
      obtain ⟨o, ho, hsf, hsb, -, hfreed⟩ := hS.object_of_raw_conflict hf hb hkey hne
        (by simp [RawAccess.mutates, hfree]) hlive
      exact ⟨f, hfree, rfl, rfl, hne, o, ho, hsf, hsb, hfreed hfree⟩
    | field hstruct hoffset hkind hfield htype hapart hlive =>
      obtain ⟨o, ho, hsf, hsb, -, hfreed⟩ := hS.object_of_raw_free hf hfree hstruct hoffset hb hkind
        hfield htype hapart hlive
      exact ⟨f.synthetic b.key, hfree, rfl, rfl, (hapart b hb rfl).symm, o, ho, hsf, hsb, hfreed⟩
  obtain ⟨O, hO⟩ := List.mem_iff_getElem?.mp ho
  exact ⟨O, o, hO, hfreed, ⟨_, hsf, SurfaceInput.site_free.mpr hf', hnode,
    congrArg Nat.cast hthread⟩, hsb, hne⟩

/-- A free that meets an access of another thread comes to phase B, and the pair is discharged only
where a mechanism that is no lock is trusted. -/
theorem free_reachesPhaseB {I : SurfaceInput} (hS : I.Generates R.surface) {f b : RawAccess}
    (hf : f ∈ I.rawAccesses) (hfree : f.isFree = true) (hb : b ∈ I.rawAccesses)
    (hmeet : FreeMeets I f b) :
    ∃ O o, R.surface.sharedObjects[O]? = some o ∧ MeetOn I f b o ∧
      R.ReachesPhaseB O f.thread b.thread ∧ ∀ base s,
        (R.compose base s).dischargedPair (pairOf O O f.thread b.thread) = true →
          (R.compose base s).hardDischarge (pairOf O O f.thread b.thread) = true ∧
            base.env.trustHardNonLockDischarge = true := by
  obtain ⟨O, o, hO, hon⟩ := exists_meetOn hS hf hfree hb hmeet
  obtain ⟨x, hx, hxfree, -, hxt⟩ := hon.free
  have hne : x.threadId ≠ (I.site b).threadId := by
    rw [hxt]
    exact fun heq => hon.ne (Nat.cast_inj.mp heq)
  -- A freed object is kept by every budget.
  have hforced : forceKeepObject o = true := by simp [forceKeepObject, hon.freed]
  refine ⟨O, o, hO, hon, ?_, fun base s hdis => ?_⟩
  · have hreach := reachesPhaseB_of_forced hO (hS.wellFormed o (List.mem_of_getElem? hO)) hforced
      hx hon.access hne (by simp [AccessSite.isWrite, hxfree])
    rwa [hxt] at hreach
  · refine trusted_of_dischargedPair hdis ?_
    -- One of the two threads frees, and only a trusted mechanism discharges a free.
    have hkind : ∀ t, (R.compose base s).kind (pairOf O O f.thread b.thread) t =
        o.toSurfaceObject.threadAccessKind t := by
      intro t
      rw [ComposeInput.kind, show (pairOf O O f.thread b.thread).object = O from rfl,
        object_compose hO]
    have hfreekind := (touch_threadAccessKind hx).2.2 hxfree
    rw [hxt] at hfreekind
    rw [hkind, hkind]
    rcases threads_pairOf O O f.thread b.thread with h | h
    · exact Or.inl (by rw [h.1, hfreekind])
    · exact Or.inr (by rw [h.2, hfreekind])

/-! ### The freed device -/

/-- The surface of the freed device; the model keeps the list and forgets the rest. -/
def freedDeviceRun : SelectionRun where
  surface := SurfaceInput.freedDevice.generate
  flowPrior := ⟨false, [], []⟩
  globalCapVar := none
  perThreadSetCapVar := none
  disableVar := none
  triageOn := true
  dialogue := [("submit_triage", .obj [("analyze", .arr [.int 0, .int 7, .str "all"])])]
  failed := false
  sessionCapVar := none
  sessionDisableVar := none

/-- The free of the device and the access to its status come to phase B. -/
theorem freedDeviceRun_reaches :
    freedDeviceRun.selectObjects = Finset.univ ∧
      ∃ O o, freedDeviceRun.surface.sharedObjects[O]? = some o ∧
        MeetOn SurfaceInput.freedDevice SurfaceInput.freedDevice.rawAccesses[0]
          SurfaceInput.freedDevice.rawAccesses[1] o ∧
        freedDeviceRun.ReachesPhaseB O 0 2 ∧ ∀ base s,
          (freedDeviceRun.compose base s).dischargedPair (pairOf O O 0 2) = true →
            (freedDeviceRun.compose base s).hardDischarge (pairOf O O 0 2) = true ∧
              base.env.trustHardNonLockDischarge = true := by
  refine ⟨by decide +kernel, ?_⟩
  refine free_reachesPhaseB (I := SurfaceInput.freedDevice)
    (f := SurfaceInput.freedDevice.rawAccesses[0]) (b := SurfaceInput.freedDevice.rawAccesses[1])
    SurfaceInput.generates_generate (by decide) rfl (by decide) ?_
  exact .field rfl rfl rfl (by decide) rfl (by decide)
    (Or.inr fun h => absurd h.manual (by decide))

end SelectionRun

end Lace.PhaseB
