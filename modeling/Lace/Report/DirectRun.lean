import Lace.L2.Sessions
import Lace.PhaseB.ContractBudget
import Lace.Report.HypothesisGroups

/-!
# From the surface to the report

The contract mode without phase C, from the contracts on: every candidate that phase B selects becomes
a hypothesis, what looks like one root cause is merged, the verifier may filter what is left, and the
rest is printed. With `LACE_CONTRACT_L2` the candidates are the requirements that the checker of the
contracts does not discharge. The contracts may be any; a run that an exception of phase A ends prints
nothing of this.

## Main definitions

* `DirectRun`, `L2Branch`: what such a run reads;
* `detectFromHypotheses`, `DirectRun.report`: what the run prints;
* `DirectRun.Grounded`, `DirectRun.L2Grounded`: what a printed hypothesis is about;
* `DirectRun.ReportedFor`: a printed hypothesis speaks for a pair of threads.

## Main results

* `DirectRun.reported_of_reviewed`: every pair that phase B has to review is spoken for, unless a
  cap of the verdict is reached;
* `DirectRun.free_reported`: so is every free that meets an access of another thread;
* `DirectRun.grounded_of_printed`: what is printed is about two threads that may conflict, or about a
  requirement that is not discharged.
-/

namespace Lace.Report

open Library LLM PhaseB ComposeInput

/-- `detectFromHypotheses`: what the verifier confirms, or everything without a verifier. Its
answers may depend on what it was asked before, hence on the position. -/
def detectFromHypotheses (verifier : Option (RaceHypothesis → ℕ → Bool))
    (hypotheses : List RaceHypothesis) : List RaceHypothesis :=
  (hypotheses.zipIdx.filter fun m => verifier.all fun verify => verify m.1 m.2).map Prod.fst

/-- `l2::toHypothesis`: the hypothesis of a requirement that is not discharged. -/
def toHypothesis (object : ObjectRef → SurfaceObject) (c : L2Candidate) (seqId : ℕ) :
    RaceHypothesis where
  id := "l2_" ++ toString seqId
  bugCategory :=
    if c.lifetime then "use_after_free"
    else
      match c.form with
      | .mustPrecede => "order_violation"
      | .mustBeMediated => "data_race"
      | .mustBeAtomic => "atomicity_violation"
  severity := if c.lifetime then "high" else "medium"
  description :=
    "[L2] " ++ c.reason ++
      (match c.object with
        | some O => " on " ++ if (object O).name.isEmpty then "<anon>" else (object O).name
        | none => "") ++
      " (thread " ++ toString c.reqTid ++ ")"
  nodes :=
    (if 0 ≤ c.aNode then [("a", c.aNode)] else []) ++ if 0 ≤ c.bNode then [("b", c.bNode)] else []
  constraints := []

/-- What the branch for `LACE_CONTRACT_L2` reads besides the surface: the contracts with their node
requirements, and the graphs that the checker asks. -/
structure L2Branch where
  /-- `contractsByTid`. -/
  contracts : ContractMap
  /-- `ccpg`. -/
  ccpg : CCPG
  /-- `hb`. -/
  hb : HBGraph
  /-- The variables that the checker reads. -/
  env : LaceEnv

/-- A run in contract mode with `LACE_SKIP_PHASE_C`, from the contracts to the report. -/
structure DirectRun extends SelectionRun where
  /-- What `composeVerdict` reads, apart from the objects. -/
  base : ComposeInput
  /-- The branch for `LACE_CONTRACT_L2`, if the variable is set. -/
  l2 : Option L2Branch
  /-- `batchVerify`. -/
  batchVerify : Bool
  /-- `LACE_CALIBRATE_MED_ONLY`, `LACE_PHASE_C_MAX_BATCHES` and `LACE_PHASE_C_BATCH_SIZE`. -/
  phaseCVars : Option Bool × Option ℤ × Option ℤ
  /-- `dedupEnabled`. -/
  dedupEnabled : Bool
  /-- `dedupLevelFromEnv`. -/
  level : DedupLevel
  /-- The answers of `verifyHypothesis`, if there is a verifier. -/
  verifier : Option (RaceHypothesis → ℕ → Bool)
  /-- `CCPG::getNodeByID`. -/
  getNodeByID : NodeId → Option ReportNode

namespace DirectRun

variable (D : DirectRun)

/-- The object at a position of the surface. -/
def object (O : ObjectRef) : SurfaceObject :=
  (D.surface.sharedObjects.getD O (plainObject ⟨[], TidSet.sorted_nil⟩ false 0)).toSurfaceObject

/-- `objIndex`: the objects of the surface under their positions. -/
def objIndex (O : ObjectRef) : Option ℤ :=
  if O < D.surface.sharedObjects.length then some (O : ℤ) else none

/-- No two objects have one position. -/
theorem objIndex_inj (O O' : ObjectRef) (i : ℤ) (h : D.objIndex O = some i)
    (h' : D.objIndex O' = some i) : O = O' := by
  unfold objIndex at h h'
  split_ifs at h h'
  rw [← h'] at h
  exact Nat.cast_inj.mp (Option.some.inj h)

/-- What the loops over the sessions read. -/
def reviewInput : ReviewInput where
  base := { D.base with object := D.object, objIndex := D.objIndex }
  sessions := D.sessions
  flowPrior := D.flowPrior
  calibrateMedOnly := D.phaseCVars.1
  maxBatchesVar := D.phaseCVars.2.1
  batchSizeVar := D.phaseCVars.2.2
  objIndex_inj := D.objIndex_inj
  disjoint := D.sessionBudget.disjoint_sessions D.keptIds

/-- `composed` of the default branch: the hypotheses of phase B. -/
def composedB : List RaceHypothesis :=
  if D.batchVerify then D.reviewInput.directBatch else D.reviewInput.directPerSession

/-- What the checker reads in the branch for `LACE_CONTRACT_L2`. -/
def l2Context (L : L2Branch) : L2Context where
  contracts := L.contracts
  object O := (D.object O).shared
  objIndex := D.objIndex
  ccpg := L.ccpg
  hb := L.hb
  env := L.env

/-- `composedL2`: the hypotheses of the requirements that are not discharged, session by session. -/
def composedL2 (L : L2Branch) : List RaceHypothesis :=
  ((D.l2Context L).sessionLoop D.sessions).zipIdx.map fun m => toHypothesis D.object m.1 (m.2 + 1)

/-- The hypotheses of the branch that the run takes. -/
def composed : List RaceHypothesis :=
  match D.l2 with
  | some L => D.composedL2 L
  | none => D.composedB

/-- The objects of the surface. -/
def objects : List SurfaceObject := D.surface.sharedObjects.map RatedObject.toSurfaceObject

/-- `confirmedHypotheses_` of the manager. -/
def confirmedHypotheses : List RaceHypothesis :=
  if D.dedupEnabled then dedupHypotheses D.objects D.level D.composed else D.composed

/-- The report of the run; contract mode has no other bugs. -/
def report : Option (List ReportItem) :=
  printResults D.getNodeByID [] [] (detectFromHypotheses D.verifier D.confirmedHypotheses)

/-- The hypotheses in the report, as primary ones or as alternates. -/
def printed : List RaceHypothesis := (reportedGroups D.report).flatMap ReportEntry.members

/-- What `composeVerdict` reads for a session. -/
abbrev input (s : Session) : ComposeInput := D.toSelectionRun.compose D.base s

/-- A printed hypothesis speaks for a pair of threads of a session: for the candidate with the
pair's key, or for one that is merged with it, and it is as severe. -/
structure ReportedFor (s : Session) (p : Pair) (c : PhaseBCandidate) (r : RaceHypothesis) :
    Prop where
  /-- The candidate is selected. -/
  selected : c ∈ (D.input s).selected
  /-- It has the key of the pair. -/
  key : c.key = ((D.input s).candidate p).key
  /-- The hypothesis is printed. -/
  printed : r ∈ D.printed
  /-- The two have one canonical key. -/
  canonical : canonicalKey D.objects D.level r =
    canonicalKey D.objects D.level (phaseBToHypothesis D.object c 0)
  /-- The hypothesis is as severe as the pair. -/
  severity : severityRank (phaseBToHypothesis D.object ((D.input s).candidate p) 0).severity ≤
    severityRank r.severity

/-- What a printed hypothesis is about: two threads that access an object, may run in parallel and
conflict, and that the contracts do not discharge. The nodes are those of their accesses. -/
structure Grounded (I : SurfaceInput) (h : RaceHypothesis) (s : Session) (o : RatedObject)
    (p : Pair) : Prop where
  /-- The session is one of the run. -/
  session : s ∈ D.sessions
  /-- The object is on the surface. -/
  object : D.surface.sharedObjects[p.object]? = some o
  /-- The threads are different. -/
  ne : p.t1 ≠ p.t2
  /-- They may run in parallel. -/
  gate : (D.input s).mhpGate p = true
  /-- The contracts do not discharge them. -/
  undischarged : (D.input s).dischargedPair p = false
  /-- The category is that of the hazard between them. -/
  category : h.bugCategory = bugCategoryOf (phaseBHazardClass ((D.input s).candidate p).label)
  /-- They conflict. -/
  conflict : ∃ x ∈ o.accesses, ∃ y ∈ o.accesses, x.threadId = p.t1 ∧ y.threadId = p.t2 ∧
    (x.isWrite = true ∨ y.isWrite = true)
  /-- The nodes are those of accesses of the two, which stem from raw accesses. -/
  nodes : ∀ n ∈ h.nodes.map Prod.snd, 0 ≤ n ∧ ∃ x ∈ o.accesses, x.nodeId = n ∧
    (x.threadId = p.t1 ∨ x.threadId = p.t2) ∧ ∃ a ∈ I.rawAccesses, I.StemsFrom o x a

/-- What a printed hypothesis is about in the branch for `LACE_CONTRACT_L2`: a requirement of a
thread of a session, and an operand pair of it that the checker does not discharge. -/
structure L2Grounded (L : L2Branch) (h : RaceHypothesis) (s : Session) (tid : Tid) (q : NodeReq)
    (n : NodeId × NodeId) : Prop where
  /-- The session is one of the run. -/
  session : s ∈ D.sessions
  /-- The thread is one of the session. -/
  thread : tid ∈ s.threads.toList
  /-- The requirement is in its contract. -/
  requirement : q ∈ L.contracts.nodeReqs tid
  /-- The nodes are operands of the requirement. -/
  operands : n ∈ (D.l2Context L).operandPairs s tid q
  /-- The checker does not discharge them. -/
  undischarged : (D.l2Context L).discharged s q n = false
  /-- The hypothesis has no other nodes. -/
  nodes : ∀ m ∈ h.nodes.map Prod.snd, 0 ≤ m ∧ (m = n.1 ∨ m = n.2)

variable {D} {h r : RaceHypothesis} {c : PhaseBCandidate} {s : Session} {p : Pair}

/-! ### The report -/

/-- The report has what the verifier confirms. -/
theorem printed_perm : D.printed.Perm (detectFromHypotheses D.verifier D.confirmedHypotheses) := by
  rw [printed, report, reportedGroups_printResults]
  refine ((entries_perm _).flatMap_right _).trans ?_
  rw [List.flatMap_map]
  exact flatMap_entry_perm _

/-- The verifier confirms nothing new. -/
theorem mem_of_mem_detect {verifier : Option (RaceHypothesis → ℕ → Bool)}
    {hs : List RaceHypothesis} (h : r ∈ detectFromHypotheses verifier hs) : r ∈ hs := by
  obtain ⟨m, hm, rfl⟩ := List.mem_map.mp h
  exact List.fst_mem_of_mem_zipIdx (List.mem_of_mem_filter hm)

/-- Without a verifier every hypothesis is confirmed. -/
theorem detect_none (hs : List RaceHypothesis) : detectFromHypotheses none hs = hs := by
  have hall : (hs.zipIdx.filter fun m =>
      (none : Option (RaceHypothesis → ℕ → Bool)).all fun verify => verify m.1 m.2) = hs.zipIdx :=
    List.filter_eq_self.mpr fun _ _ => rfl
  rw [detectFromHypotheses, hall, List.zipIdx_map_fst]

/-! ### The hypotheses of phase B -/

/-- Without `LACE_CONTRACT_L2` the hypotheses are those of phase B. -/
theorem composed_eq (hl2 : D.l2 = none) : D.composed = D.composedB := by
  rw [composed, hl2]

/-- Both paths make each selected candidate a hypothesis, up to the number in its id. -/
theorem composedB_perm : (D.composedB.map withoutId).Perm
    ((D.sessions.flatMap fun s => (D.input s).selected).map fun c =>
      withoutId (phaseBToHypothesis D.object c 0)) := by
  have hdirect : D.reviewInput.directPerSession.map withoutId =
      (D.sessions.flatMap fun s => (D.input s).selected).map fun c =>
        withoutId (phaseBToHypothesis D.object c 0) := by
    rw [ReviewInput.directPerSession_eq, ReviewInput.map_withoutId_numbered]
    rfl
  rw [← hdirect, composedB]
  split_ifs
  · exact ReviewInput.direct_perm
  · exact List.Perm.refl _

/-- Every hypothesis of phase B stands for a selected candidate of a session. -/
theorem exists_candidate_of_mem_composed (hl2 : D.l2 = none) (hh : h ∈ D.composed) :
    ∃ s ∈ D.sessions, ∃ c ∈ (D.input s).selected,
      withoutId h = withoutId (phaseBToHypothesis D.object c 0) := by
  rw [composed_eq hl2] at hh
  obtain ⟨c, hc, heq⟩ := List.mem_map.mp (composedB_perm.mem_iff.mp (List.mem_map_of_mem hh))
  obtain ⟨s, hs, hc⟩ := List.mem_flatMap.mp hc
  exact ⟨s, hs, c, hc, heq.symm⟩

/-- Every selected candidate becomes a hypothesis. -/
theorem exists_composed_of_selected (hl2 : D.l2 = none) (hs : s ∈ D.sessions)
    (hc : c ∈ (D.input s).selected) :
    ∃ h ∈ D.composed, withoutId h = withoutId (phaseBToHypothesis D.object c 0) := by
  rw [composed_eq hl2]
  obtain ⟨h, hh, heq⟩ := List.mem_map.mp (composedB_perm.mem_iff.mpr
    (List.mem_map_of_mem (List.mem_flatMap.mpr ⟨s, hs, hc⟩)))
  exact ⟨h, hh, heq⟩

/-- The number of a hypothesis is no part of its key. -/
theorem canonicalKey_withoutId (h : RaceHypothesis) :
    canonicalKey D.objects D.level (withoutId h) = canonicalKey D.objects D.level h := rfl

theorem severity_withoutId (h : RaceHypothesis) : (withoutId h).severity = h.severity := rfl

theorem nodes_withoutId (h : RaceHypothesis) : (withoutId h).nodes = h.nodes := rfl

theorem bugCategory_withoutId (h : RaceHypothesis) :
    (withoutId h).bugCategory = h.bugCategory := rfl

/-! ### What is reported -/

/-- Merging keeps a hypothesis with the key, and one that is as severe. -/
theorem exists_confirmed (hh : h ∈ D.composed) : ∃ r ∈ D.confirmedHypotheses,
    canonicalKey D.objects D.level r = canonicalKey D.objects D.level h ∧
      severityRank h.severity ≤ severityRank r.severity := by
  rw [confirmedHypotheses]
  split_ifs
  · have hdedup : IsDedup D.objects D.level D.composed
        (dedupHypotheses D.objects D.level D.composed) := isDedup_dedupHypotheses
    obtain ⟨r, hr, hkey⟩ := List.mem_map.mp ((hdedup.keys _).mpr (List.mem_map_of_mem hh))
    obtain ⟨h', -, ⟨note, heq⟩, hkey', hbest⟩ := hdedup.best r hr
    have hsev : r.severity = h'.severity := by rw [heq]
    refine ⟨r, hr, hkey, ?_⟩
    rw [hsev]
    exact (hbest h hh (hkey.symm.trans hkey')).1
  · exact ⟨h, hh, rfl, le_rfl⟩

/-- The severity of a hypothesis is that of its tier. -/
theorem severityRank_mono {c c' : PhaseBCandidate} (hle : tierRank c.tier ≤ tierRank c'.tier) :
    severityRank (phaseBToHypothesis D.object c 0).severity ≤
      severityRank (phaseBToHypothesis D.object c' 0).severity := by
  cases htier : c.tier <;> cases htier' : c'.tier <;> rw [htier, htier'] at hle <;>
    simp only [phaseBToHypothesis, htier, htier'] <;> revert hle <;> decide

/-- Every pair that phase B has to review is spoken for, unless a cap of the verdict is reached. -/
theorem reported_of_reviewed (hl2 : D.l2 = none) (hverifier : D.verifier = none)
    (hs : s ∈ D.sessions)
    (hp : (D.input s).Reviewed p) : (∃ c r, D.ReportedFor s p c r) ∨
      (∃ t, (D.input s).StrongestTier ((D.input s).candidate p).key t ∧
        (D.input s).cap t ≤ (D.input s).selectedOf t) ∨
      (D.input s).maxTotal ≤ (D.input s).selected.length := by
  obtain ⟨c, hc, hkey⟩ := mem_key_candidates_iff.mpr ⟨p, hp, rfl⟩
  have htier := strongestTier_of_mem_candidates hc
  rw [hkey] at htier
  have hinv : SelectInv PhaseBCandidate.tier (D.input s).cap (D.input s).maxTotal (fun _ => 0) [] :=
    SelectInv.nil
  rcases mem_or_reached_selectLoop hinv hc with hsel | hcap | htotal
  · left
    obtain ⟨h, hh, heq⟩ := exists_composed_of_selected hl2 hs hsel
    obtain ⟨r, hr, hcanonical, hsev⟩ := exists_confirmed hh
    -- Neither the key nor the severity reads the id.
    have hsame : canonicalKey D.objects D.level h =
        canonicalKey D.objects D.level (phaseBToHypothesis D.object c 0) := by
      rw [← canonicalKey_withoutId, heq, canonicalKey_withoutId]
    have hseverity : h.severity = (phaseBToHypothesis D.object c 0).severity := by
      rw [← severity_withoutId, heq, severity_withoutId]
    refine ⟨c, r, hsel, hkey, printed_perm.mem_iff.mpr ?_, hcanonical.trans hsame, ?_⟩
    · rwa [hverifier, detect_none]
    · rw [hseverity] at hsev
      exact (severityRank_mono (htier.2 p hp rfl)).trans hsev
  · exact Or.inr (Or.inl ⟨c.tier, htier, hcap⟩)
  · exact Or.inr (Or.inr htotal)

/-- The access that stands for a thread is one of the thread. -/
theorem mem_representativeAccess {o : SurfaceObject} {t : Tid} {k : AccKind} {a : AccessSite}
    (h : o.representativeAccess t k = some a) : a ∈ o.accessesOf t := by
  rw [SurfaceObject.representativeAccess, Option.orElse_eq_orElse, Option.orElse_eq_or,
    Option.or_eq_some_iff] at h
  rcases h with h | ⟨-, h⟩
  · exact List.mem_of_find?_eq_some h
  · exact List.mem_of_mem_head? h

/-- So is the access of a violator. -/
theorem mem_escapingViolatorAccess {o : SurfaceObject} {t : Tid} {k : AccKind} {a : AccessSite}
    (h : o.escapingViolatorAccess t k = some a) : a ∈ o.accessesOf t := by
  simp only [SurfaceObject.escapingViolatorAccess, Option.orElse_eq_orElse,
    Option.orElse_eq_or, Option.or_eq_some_iff] at h
  rcases h with h | ⟨-, h | ⟨-, h⟩⟩
  · exact List.mem_of_mem_filter (List.mem_of_find?_eq_some h)
  · exact List.mem_of_mem_filter (List.mem_of_find?_eq_some h)
  · exact mem_representativeAccess h

/-- So is the mutation that is looked for. -/
theorem mem_mutationFor {o : SurfaceObject} {t : Tid} {k : AccKind} {a : AccessSite}
    (h : o.mutationFor t k = some a) : a ∈ o.accessesOf t := by
  unfold SurfaceObject.mutationFor at h
  dsimp only at h
  split_ifs at h
  exact mem_representativeAccess h

/-- The anchor of a verdict is an access of one of the two threads. -/
theorem mem_mutatingAnchor {o : SurfaceObject} {t u : Tid} {k l : AccKind} {a : AccessSite}
    (h : o.mutatingAnchor t k u l = some a) : a ∈ o.accessesOf u ∨ a ∈ o.accessesOf t := by
  simp only [SurfaceObject.mutatingAnchor, Option.orElse_eq_orElse, Option.orElse_eq_or,
    Option.or_eq_some_iff] at h
  rcases h with h | ⟨-, h | ⟨-, h⟩⟩
  · exact Or.inl (mem_mutationFor h)
  · exact Or.inr (mem_mutationFor h)
  · exact Or.inl (mem_representativeAccess h)

/-- What a thread does with an object, one of its accesses does. -/
theorem exists_access_of_touch {o : SurfaceObject} {t : Tid}
    (h : (o.threadAccessKind t).touch = true) : ∃ a ∈ o.accesses, a.threadId = t := by
  simp only [AccKind.touch, SurfaceObject.threadAccessKind, Bool.or_eq_true,
    List.any_eq_true] at h
  rcases h with (⟨a, ha, -⟩ | ⟨a, ha, -⟩) | ⟨a, ha, -⟩ <;>
    exact ⟨a, List.mem_of_mem_filter ha, by simpa using (List.mem_filter.mp ha).2⟩

/-- A thread that mutates an object has an access that does. -/
theorem exists_access_of_mutates {o : SurfaceObject} {t : Tid}
    (h : (o.threadAccessKind t).mutates = true) :
    ∃ a ∈ o.accesses, a.threadId = t ∧ a.isWrite = true := by
  simp only [AccKind.mutates, SurfaceObject.threadAccessKind, Bool.or_eq_true,
    List.any_eq_true, decide_eq_true_eq] at h
  rcases h with ⟨a, ha, hkind⟩ | ⟨a, ha, hkind⟩ <;>
    exact ⟨a, List.mem_of_mem_filter ha, by simpa using (List.mem_filter.mp ha).2,
      by simp [AccessSite.isWrite, hkind]⟩

/-- The category of a hypothesis is that of the hazard. -/
theorem bugCategory_phaseBToHypothesis (object : ObjectRef → SurfaceObject) (c : PhaseBCandidate)
    (n : ℕ) : (phaseBToHypothesis object c n).bugCategory =
      bugCategoryOf (phaseBHazardClass c.label) := by
  simp only [phaseBToHypothesis]

/-- Merging changes nothing of a hypothesis but its description. -/
theorem exists_composed_of_mem_confirmed (hr : r ∈ D.confirmedHypotheses) :
    ∃ h ∈ D.composed, r.nodes = h.nodes ∧ r.bugCategory = h.bugCategory := by
  rw [confirmedHypotheses] at hr
  split_ifs at hr
  · obtain ⟨h, hh, ⟨note, rfl⟩, -⟩ := isDedup_dedupHypotheses.best r hr
    exact ⟨h, hh, rfl, rfl⟩
  · exact ⟨r, hr, rfl, rfl⟩

/-- A confirmed hypothesis is that of a candidate, apart from its id and its description. -/
theorem exists_candidate_of_mem_confirmed (hl2 : D.l2 = none) (hr : r ∈ D.confirmedHypotheses) :
    ∃ s ∈ D.sessions, ∃ c ∈ (D.input s).selected,
      r.nodes = (phaseBToHypothesis D.object c 0).nodes ∧
        r.bugCategory = (phaseBToHypothesis D.object c 0).bugCategory := by
  obtain ⟨h, hh, hnodes, hcategory⟩ := exists_composed_of_mem_confirmed hr
  obtain ⟨s, hs, c, hc, heq⟩ := exists_candidate_of_mem_composed hl2 hh
  refine ⟨s, hs, c, hc, hnodes.trans ?_, hcategory.trans ?_⟩
  · rw [← nodes_withoutId, heq, nodes_withoutId]
  · rw [← bugCategory_withoutId, heq, bugCategory_withoutId]

/-- The nodes of a candidate's hypothesis are those of its two accesses. -/
theorem exists_access_of_mem_nodes_phaseBToHypothesis {object : ObjectRef → SurfaceObject}
    {n : NodeId} (hn : n ∈ (phaseBToHypothesis object c 0).nodes.map Prod.snd) :
    ∃ a : AccessSite, (c.violAccess = some a ∨ c.anchor = some a) ∧ 0 ≤ a.nodeId ∧
      a.nodeId = n := by
  simp only [phaseBToHypothesis, List.map_append, List.mem_append] at hn
  rcases hn with hn | hn
  · cases hv : c.violAccess with
    | none => simp [hv] at hn
    | some a =>
      rw [hv] at hn
      dsimp only at hn
      split_ifs at hn with hpos
      · exact ⟨a, Or.inl rfl, hpos, by simpa [eq_comm] using hn⟩
      · simp at hn
  · cases ha : c.anchor with
    | none => simp [ha] at hn
    | some a =>
      rw [ha] at hn
      dsimp only at hn
      split_ifs at hn with hcond
      · rw [Bool.and_eq_true, decide_eq_true_eq] at hcond
        exact ⟨a, Or.inr rfl, hcond.1, by simpa [eq_comm] using hn⟩
      · simp at hn

/-- The two accesses of a candidate are of its two threads. -/
theorem accessesOf_of_candidate {X : ComposeInput} {o : SurfaceObject}
    (ho : X.object p.object = o) (hc : c = { X.candidate p with merged := c.merged })
    {a : AccessSite} (ha : c.violAccess = some a ∨ c.anchor = some a) :
    a ∈ o.accessesOf (X.candidate p).violT ∨ a ∈ o.accessesOf (X.candidate p).reqT := by
  rw [hc] at ha
  rw [← ho]
  rcases ha with ha | ha
  · exact Or.inl (mem_escapingViolatorAccess ha)
  · exact mem_mutatingAnchor ha

/-- So its nodes are those of accesses of the two threads. -/
theorem exists_access_of_mem_nodes {X : ComposeInput} {o : SurfaceObject}
    (ho : X.object p.object = o) (hc : c = { X.candidate p with merged := c.merged }) {n : NodeId}
    (hn : n ∈ (phaseBToHypothesis D.object c 0).nodes.map Prod.snd) :
    0 ≤ n ∧ ∃ x ∈ o.accesses, x.nodeId = n ∧ (x.threadId = p.t1 ∨ x.threadId = p.t2) := by
  have hthreads := threads_candidate (X := X) (p := p)
  obtain ⟨a, ha, hpos, rfl⟩ := exists_access_of_mem_nodes_phaseBToHypothesis hn
  have haccess := accessesOf_of_candidate ho hc ha
  refine ⟨hpos, a, ?_, rfl, ?_⟩
  · rcases haccess with h | h <;> exact List.mem_of_mem_filter h
  · have hthread : a.threadId = (X.candidate p).violT ∨ a.threadId = (X.candidate p).reqT :=
      haccess.imp (fun h => by simpa using (List.mem_filter.mp h).2)
        fun h => by simpa using (List.mem_filter.mp h).2
    rcases hthreads with h | h
    · rw [h.1, h.2] at hthread
      exact hthread.symm
    · rw [h.1, h.2] at hthread
      exact hthread

/-- What is printed without `LACE_CONTRACT_L2` is about two threads of an object that may run in
parallel and conflict. -/
theorem exists_grounded {I : SurfaceInput} (hS : I.Generates D.surface) (hl2 : D.l2 = none)
    (hr : r ∈ D.confirmedHypotheses) : ∃ s o p, D.Grounded I r s o p := by
  obtain ⟨s, hs, c, hc, hnodes, hcategory⟩ := exists_candidate_of_mem_confirmed hl2 hr
  obtain ⟨p, hp, heq⟩ := ComposeInput.selected_sound hc
  have hindex : D.objIndex p.object = some p.oi := hp.index
  obtain ⟨o, ho⟩ : ∃ o, D.surface.sharedObjects[p.object]? = some o := by
    unfold objIndex at hindex
    split_ifs at hindex with hlt
    exact ⟨_, List.getElem?_eq_getElem hlt⟩
  have hobject : (D.input s).object p.object = o.toSurfaceObject :=
    SelectionRun.object_compose ho D.base s
  -- Both threads touch the object, and one of them changes it.
  have hconflicts := hp.conflicts
  rw [ComposeInput.kind, ComposeInput.kind, hobject, PhaseB.conflict, Bool.and_eq_true,
    Bool.and_eq_true, Bool.or_eq_true] at hconflicts
  obtain ⟨⟨htouch1, htouch2⟩, hmutates⟩ := hconflicts
  refine ⟨s, o, p, hs, ho, hp.lt.ne, hp.gate, hp.not_discharged, ?_, ?_, fun n hn => ?_⟩
  · have hlabel : c.label = ((D.input s).candidate p).label := by rw [heq]
    rw [hcategory, bugCategory_phaseBToHypothesis, hlabel]
  · rcases hmutates with hmut | hmut
    · obtain ⟨x, hx, hxt, hw⟩ := exists_access_of_mutates hmut
      obtain ⟨y, hy, hyt⟩ := exists_access_of_touch htouch2
      exact ⟨x, hx, y, hy, hxt, hyt, Or.inl hw⟩
    · obtain ⟨x, hx, hxt⟩ := exists_access_of_touch htouch1
      obtain ⟨y, hy, hyt, hw⟩ := exists_access_of_mutates hmut
      exact ⟨x, hx, y, hy, hxt, hyt, Or.inr hw⟩
  · rw [hnodes] at hn
    obtain ⟨hpos, x, hx, hxn, hxt⟩ := exists_access_of_mem_nodes hobject heq hn
    have hsurface := hS.traced o (List.mem_of_getElem? ho) x hx
    exact ⟨hpos, x, hx, hxn, hxt, hsurface⟩

/-- The hypothesis of a requirement has no other nodes than its pair. -/
theorem mem_nodes_toHypothesis {object : ObjectRef → SurfaceObject} {c : L2Candidate} {k : ℕ}
    {n : NodeId} (hn : n ∈ (toHypothesis object c k).nodes.map Prod.snd) :
    0 ≤ n ∧ (n = c.aNode ∨ n = c.bNode) := by
  rw [toHypothesis, List.map_append, List.mem_append] at hn
  rcases hn with hn | hn <;> split_ifs at hn with hpos
  · rw [List.map_singleton, List.mem_singleton] at hn
    exact ⟨hn ▸ hpos, Or.inl hn⟩
  · cases hn
  · rw [List.map_singleton, List.mem_singleton] at hn
    exact ⟨hn ▸ hpos, Or.inr hn⟩
  · cases hn

/-- What is printed with `LACE_CONTRACT_L2` is about a requirement that is not discharged. -/
theorem exists_l2Grounded {L : L2Branch} (hl2 : D.l2 = some L) (hr : r ∈ D.confirmedHypotheses) :
    ∃ s tid q n, D.L2Grounded L r s tid q n := by
  obtain ⟨h, hh, hnodes, -⟩ := exists_composed_of_mem_confirmed hr
  rw [composed, hl2] at hh
  obtain ⟨m, hm, rfl⟩ := List.mem_map.mp hh
  obtain ⟨s, hs, tid, q, hq, hproduces, hcheck⟩ :=
    L2Context.mem_sessionLoop.mp (List.fst_mem_of_mem_zipIdx hm)
  rw [L2Context.produces, Bool.and_eq_true, decide_eq_true_eq] at hproduces
  obtain ⟨n, hfind, hcand⟩ := Option.map_eq_some_iff.mp hcheck
  refine ⟨s, tid, q, n, hs, hproduces.1, hq, List.mem_of_find?_eq_some hfind, ?_, fun k hk => ?_⟩
  · simpa using List.find?_some hfind
  · rw [hnodes] at hk
    have hpair := mem_nodes_toHypothesis hk
    rwa [← hcand] at hpair

/-- Whatever the verifier answers, what is printed is about two threads of an object that may run in
parallel and conflict, and its nodes are those of their accesses. With `LACE_CONTRACT_L2` it is
about an operand pair of a requirement that the checker does not discharge. -/
theorem grounded_of_printed {I : SurfaceInput} (hS : I.Generates D.surface) (hr : r ∈ D.printed) :
    (D.l2 = none → ∃ s o p, D.Grounded I r s o p) ∧
      ∀ L, D.l2 = some L → ∃ s tid q n, D.L2Grounded L r s tid q n := by
  have hconfirmed := mem_of_mem_detect (printed_perm.mem_iff.mp hr)
  exact ⟨fun hl2 => exists_grounded hS hl2 hconfirmed,
    fun L hl2 => exists_l2Grounded hl2 hconfirmed⟩

/-! ### The report about the freed device -/

/-- The run without contracts on the freed device. -/
def freedDevice : DirectRun where
  toSelectionRun := SelectionRun.freedDeviceRun
  base := { SelectionRun.deviceThreads with keepLow := true }
  l2 := none
  batchVerify := false
  phaseCVars := (none, none, none)
  dedupEnabled := true
  level := .anchor
  verifier := none
  getNodeByID _ := none

/-- What is printed of the run on the freed device. -/
theorem nodes_printed_freedDevice : freedDevice.printed.map (fun h => h.nodes) =
    [[("violator", 3)], [("violator", 3), ("anchor", 1)]] := by decide +kernel

/-- The run on the freed device with `LACE_CONTRACT_L2`: the thread that frees requires that the
access to the status, at node 3, comes before its free at node 1. -/
def freedDeviceL2 : DirectRun :=
  { freedDevice with
    l2 := some
      { contracts := fun tid =>
          if tid = 0 then some ⟨[⟨.mustPrecede, [3], [1], 1, "no use after the free"⟩], []⟩ else none
        ccpg := .ofNodes [1, 3] (fun _ => .assignment) fun _ => false
        hb := ⟨[]⟩
        env := ⟨none, none, false⟩ } }

/-- Both hypotheses of the default branch are about accesses of the two handlers; the one of the
other branch is about the requirement. -/
theorem freedDevice_grounded :
    (freedDevice.printed.length = 2 ∧ ∀ r ∈ freedDevice.printed,
      ∃ s o p, freedDevice.Grounded SurfaceInput.freedDevice r s o p) ∧
    freedDeviceL2.printed.map (fun h => h.nodes) = [[("a", 3), ("b", 1)]] ∧
      ∀ r ∈ freedDeviceL2.printed, ∀ L, freedDeviceL2.l2 = some L →
        ∃ s tid q n, freedDeviceL2.L2Grounded L r s tid q n := by
  refine ⟨⟨?_, fun _ hr => (grounded_of_printed SurfaceInput.generates_generate hr).1 rfl⟩, ?_,
    fun _ hr => (grounded_of_printed (I := SurfaceInput.freedDevice)
      SurfaceInput.generates_generate hr).2⟩
  · simpa using congrArg List.length nodes_printed_freedDevice
  · decide +kernel

end DirectRun

end Lace.Report
