import Lace.L2.Sessions
import Lace.LLM.Interleaving
import Lace.Library.Batches
import Lace.PhaseB.Selection

/-!
# Reviewing sessions in batches

Phase C calibrates the candidates of phase B, in one dialogue for each session. With
`LACE_PHASE_C_BATCH` the candidates of all sessions with one thread set are put together and cut
into blocks, with one dialogue for each block. Without phase C both paths make every candidate a
hypothesis.

A session whose candidates are all of the middle tier, away from the flow prior, is not calibrated.
The batch path asks this of each block: a block may have no other candidate although the session of
its candidates has one.

## Main definitions

* `ReviewInput`: what the two paths read;
* `ReviewInput.directPerSession`, `ReviewInput.directBatch`: the hypotheses without phase C;
* `ReviewInput.dialoguesPerSession`, `ReviewInput.batchRun`: the dialogues with phase C;
* `ReviewInput.BatchCovers`: the batch path covers the path session by session.

## Main results

* `ordered_eq_reviewOrder`: the groups of the batch path;
* `batchRun_eq`: its two loops are one loop over the blocks;
* `batchCovers_iff`: when it covers the other path.
-/

namespace Lace.PhaseB

open Library LLM

/-! ### The flow prior -/

/-- `FlowPrior`: the functions and files that an earlier report points to. -/
structure FlowPrior where
  /-- `enabled`. -/
  enabled : Bool
  /-- `functions`. -/
  functions : List String
  /-- `files`. -/
  files : List String
  deriving DecidableEq, Repr

/-- `flowPriorScore` of an access. -/
def AccessSite.flowPriorScore (a : AccessSite) (fp : FlowPrior) : ℕ :=
  if !fp.enabled then 0
  else
    let fn := if a.containingFunction.isEmpty then a.functionName else a.containingFunction
    (if !fn.isEmpty && fn ∈ fp.functions then 500 else 0) +
      (if !a.functionName.isEmpty && a.functionName ∈ fp.functions then 250 else 0) +
        if fp.files.any fun f => !f.isEmpty && has a.location f then 80 else 0

/-- `flowPriorScore` of an object: the best of its accesses. -/
def SurfaceObject.flowPriorScore (O : SurfaceObject) (fp : FlowPrior) : ℕ :=
  if !fp.enabled then 0
  else O.accesses.foldl (fun best a => max best (a.flowPriorScore fp)) 0

/-! ### The hypotheses of phase B -/

/-- `bug_category` of a candidate with a hazard class. -/
def bugCategoryOf (cls : String) : String :=
  if cls = "UAF" || cls = "lifetime" then "use_after_free"
  else if cls = "refcount" || cls = "double_free" then "double_free"
  else if cls = "null_deref" then "null_dereference"
  else "data_race"

/-- `phaseBToHypothesis`. Both accesses of a candidate are the first ones with some property, so
they are the same access if they look the same. -/
def phaseBToHypothesis (object : ObjectRef → SurfaceObject) (c : PhaseBCandidate) (seqId : ℕ) :
    RaceHypothesis where
  id := "phaseB_" ++ toString seqId
  severity :=
    match c.tier with
    | .high => "high"
    | .medium => "medium"
    | .low => "low"
  bugCategory := bugCategoryOf (phaseBHazardClass c.label)
  description :=
    "[Phase-B direct] " ++ c.label ++ " on " ++
      (if (object c.object).name.isEmpty then "<anon>" else (object c.object).name) ++
      " (thread " ++ toString c.reqT ++ " vs thread " ++ toString c.violT ++ ")" ++
      if 1 < c.merged then " [" ++ toString c.merged ++ " same-anchor variants]" else ""
  nodes :=
    (match c.violAccess with
      | some a => if 0 ≤ a.nodeId then [("violator", a.nodeId)] else []
      | none => []) ++
    match c.anchor with
    | some a => if 0 ≤ a.nodeId && c.anchor ≠ c.violAccess then [("anchor", a.nodeId)] else []
    | none => []
  constraints := []

/-- A hypothesis without its sequence id. -/
def withoutId (h : RaceHypothesis) : RaceHypothesis := { h with id := "" }

/-! ### The two paths -/

/-- What the two paths read. The sessions are those that the session budget leaves. -/
structure ReviewInput where
  /-- What `composeVerdict` reads, apart from the objects of the session. -/
  base : ComposeInput
  /-- `sessions`. -/
  sessions : List Session
  /-- `flowPrior`. -/
  flowPrior : FlowPrior
  /-- `LACE_CALIBRATE_MED_ONLY`, if it is set. -/
  calibrateMedOnly : Option Bool
  /-- `LACE_PHASE_C_MAX_BATCHES`. -/
  maxBatchesVar : Option ℤ
  /-- `LACE_PHASE_C_BATCH_SIZE`. -/
  batchSizeVar : Option ℤ
  /-- The index of an object is its position on the surface. -/
  objIndex_inj : ∀ O O' i, base.objIndex O = some i → base.objIndex O' = some i → O = O'
  /-- Each object belongs to one session. -/
  disjoint : sessions.Pairwise Session.Disjoint

/-- A dialogue: the arguments of `analyzeCluster`, with the candidates that the verdict lists. -/
structure Dialogue where
  /-- The objects. -/
  objects : List ObjectRef
  /-- The threads. -/
  threads : TidSet
  /-- The candidates. -/
  candidates : List PhaseBCandidate

/-- A thread set with candidates: a group, or one block of it. -/
abbrev CandidateGroup := TidSet × List PhaseBCandidate

namespace ReviewInput

variable (X : ReviewInput)

/-- The arguments of `composeVerdict` for a session. It does not read the threads of the session. -/
def compose (s : Session) : ComposeInput := { X.base with objs := s.objects.map some }

/-- The candidates of a session that are selected for the review. -/
def selected (s : Session) : List PhaseBCandidate := (X.compose s).selected

/-- `calibrateMedOnlyEnabled`: whether only candidates of the medium tier are discussed. -/
def calibrateMedOnlyEnabled : Bool := X.calibrateMedOnly.getD X.base.manualEntry

/-- `sessionFlowPriorScore`: how much the earlier report says about the objects of a session. -/
def sessionFlowPriorScore (objs : List ObjectRef) : ℕ :=
  (objs.map fun O => (X.base.object O).flowPriorScore X.flowPrior).sum

/-- The gate in front of phase C: nothing but candidates of the middle tier, away from the flow
prior. -/
def medOnly (hi med low flowScore : ℕ) : Bool :=
  hi = 0 && 0 < med && low = 0 && flowScore = 0 && !X.calibrateMedOnlyEnabled

/-- The hypotheses of candidates, numbered from one. -/
def numbered (cs : List PhaseBCandidate) : List RaceHypothesis :=
  cs.zipIdx.map fun p => phaseBToHypothesis X.base.object p.1 (p.2 + 1)

/-! ### Session by session -/

/-- The path session by session without phase C. -/
def directPerSession : List RaceHypothesis :=
  X.numbered <| X.sessions.flatMap fun s =>
    let v := (X.compose s).composeVerdict
    -- A session without a survivor is passed over.
    if v.kept = 0 then [] else v.selected

/-- The session is passed over in front of phase C. -/
def skipsSession (s : Session) : Bool :=
  let v := (X.compose s).composeVerdict
  v.kept = 0 || X.medOnly v.hi v.med v.low (X.sessionFlowPriorScore s.objects)

/-- The path session by session with phase C: one dialogue for each session that is not passed
over. -/
def dialoguesPerSession : List Dialogue :=
  (X.sessions.filter fun s => !X.skipsSession s).map fun s =>
    ⟨s.objects, s.threads, (X.compose s).composeVerdict.selected⟩

/-! ### In batches -/

/-- `byThreadSet`: the candidates of the sessions with one thread set, in the order of the sets. -/
def byThreadSet : List CandidateGroup :=
  mergeByKey (fun g => g.1.toList) (fun g h => (g.1, g.2 ++ h.2))
    (X.sessions.map fun s => (s.threads, (X.compose s).composeVerdict.selected))

/-- The loop with `seenKey`: the first candidate with each key. -/
def uniqueLoop : List String → List PhaseBCandidate → List PhaseBCandidate
  | _, [] => []
  | seenKey, c :: cs =>
    -- A candidate whose key was seen is dropped.
    if c.key ∈ seenKey then uniqueLoop seenKey cs else c :: uniqueLoop (c.key :: seenKey) cs

/-- `groupRank`: a group counts as much as its best candidate. -/
def groupRank (cs : List PhaseBCandidate) : ℕ := cs.foldl (fun r c => max r (tierRank c.tier)) 0

/-- The order of the groups: by tier, number of candidates, and number of threads. -/
def before (a b : CandidateGroup) : Bool :=
  if groupRank a.2 ≠ groupRank b.2 then groupRank b.2 < groupRank a.2
  else if a.2.length ≠ b.2.length then b.2.length < a.2.length
  else a.1.toList.length < b.1.toList.length

/-- Put groups in the order of the review, without the empty ones. -/
def arrange (groups : List CandidateGroup) : List CandidateGroup :=
  (groups.filter fun g => !g.2.isEmpty).insertionSort fun a b => before b a = false

/-- `ordered`: the groups in the order in which they are discussed. -/
def ordered : List CandidateGroup := arrange (X.byThreadSet.map fun g => (g.1, uniqueLoop [] g.2))

/-- The batch path without phase C. -/
def directBatch : List RaceHypothesis := X.numbered (X.ordered.flatMap Prod.snd)

/-- `maxBatches`: how many blocks are discussed at most. -/
def maxBatches : ℕ := envInt X.maxBatchesVar 60

/-- `batchSize`: how many candidates a block has at most. -/
def batchSize : ℕ := max 1 (envInt X.batchSizeVar 12)

/-- `gobjs`: the objects of a block, each once. -/
def blockObjects (block : List PhaseBCandidate) : List ObjectRef :=
  (block.map PhaseBCandidate.object).eraseDups

/-- The block is passed over in front of phase C. -/
def skipsBlock (block : List PhaseBCandidate) : Bool :=
  X.medOnly (block.countP fun c => c.tier = .high) (block.countP fun c => c.tier = .medium)
    (block.countP fun c => c.tier = .low) (X.sessionFlowPriorScore (blockObjects block))

/-- What the loops over the groups and their blocks have done. -/
structure BatchState where
  /-- `batchNo`. -/
  batchNo : ℕ := 0
  /-- `capHit`. -/
  capHit : Bool := false
  /-- The dialogues. -/
  dialogues : List Dialogue := []

/-- The dialogue about a block. -/
def blockDialogue (u : CandidateGroup) : Dialogue := ⟨blockObjects u.2, u.1, u.2⟩

/-- The loop over the blocks of a group. -/
def blockLoop (gts : TidSet) : List (List PhaseBCandidate) → BatchState → BatchState
  | [], st => st
  | block :: rest, st =>
    -- The cap is looked for before the gate, so a block that the gate would stop can hit it.
    if X.maxBatches ≤ st.batchNo then { st with capHit := true }
    else if X.skipsBlock block then blockLoop gts rest st
    else
      blockLoop gts rest
        { st with
          batchNo := st.batchNo + 1
          dialogues := st.dialogues ++ [blockDialogue (gts, block)] }

/-- The loop over the groups. -/
def groupLoop : List CandidateGroup → BatchState → BatchState
  | [], st => st
  | g :: rest, st =>
    if X.maxBatches ≤ st.batchNo then { st with capHit := true }
    -- After a break of the inner loop the outer one finds the cap, too.
    else groupLoop rest (X.blockLoop g.1 (chunks X.batchSize g.2) st)

/-- The batch path with phase C. -/
def batchRun : BatchState := X.groupLoop X.ordered {}

/-- The batch path covers the path session by session: without phase C the hypotheses are the same
up to their order and sequence ids, and with phase C, if the cap on the batches is not reached, each
candidate that is sent with the threads of its session is sent with them in a batch. -/
structure BatchCovers : Prop where
  /-- Without phase C. -/
  direct : (X.directBatch.map withoutId).Perm (X.directPerSession.map withoutId)
  /-- With phase C. -/
  calibrated : X.batchRun.capHit = false → ∀ d ∈ X.dialoguesPerSession, ∀ c ∈ d.candidates,
    ∃ b ∈ X.batchRun.dialogues, b.threads = d.threads ∧ c ∈ b.candidates

/-! ### The condition -/

/-- The candidates that survive phase B in the sessions with a thread set. -/
def survivors (ts : TidSet) : List PhaseBCandidate :=
  (X.sessions.filter fun s => s.threads = ts).flatMap X.selected

/-- The thread sets of the sessions, in their order. -/
def threadSets : List TidSet :=
  (X.sessions.map Session.threads).dedup.insertionSort fun a b => a.toList ≤ b.toList

/-- The thread sets with their survivors, in the order of the review. -/
def reviewOrder : List CandidateGroup := arrange (X.threadSets.map fun ts => (ts, X.survivors ts))

/-- The blocks of survivors, in the order of the review. -/
def blocks : List CandidateGroup :=
  X.reviewOrder.flatMap fun g => (chunks X.batchSize g.2).map fun block => (g.1, block)

/-- There is a block behind as many blocks that are not passed over as the cap allows. -/
def CapReached : Prop := ∃ front u rest, X.blocks = front ++ u :: rest ∧
  X.maxBatches ≤ front.countP fun u => !X.skipsBlock u.2

/-- No block of a thread set's survivors is passed over that has a candidate of a session that is
not. -/
def BlocksKept : Prop := ∀ s ∈ X.sessions, X.skipsSession s = false →
  ∀ block ∈ chunks X.batchSize (X.survivors s.threads),
    (∃ c ∈ block, c ∈ X.selected s) → X.skipsBlock block = false

variable {X} {s t : Session} {ts : TidSet} {c c' : PhaseBCandidate} {g u : CandidateGroup}

/-! ### The keys of the candidates -/

/-- A session selects each pair of accesses once. -/
theorem nodup_keys_selected (s : Session) : ((X.selected s).map PhaseBCandidate.key).Nodup := by
  have hcandidates : ((X.compose s).candidates.map PhaseBCandidate.key).Nodup :=
    (ComposeInput.candidates_perm.map _).nodup_iff.mpr
      ComposeInput.represents_byAnchor.nodup_keys
  exact ((selectCapped_sublist _).map _).nodup hcandidates

/-- A candidate of a session is about one of its objects. -/
theorem exists_object_of_mem_selected (hc : c ∈ X.selected s) :
    ∃ O ∈ s.objects, X.base.objIndex O = some c.objectId := by
  obtain ⟨p, hp, heq⟩ := ComposeInput.selected_sound hc
  have hmem : some p.object ∈ s.objects.map some := hp.mem
  refine ⟨p.object, by simpa using hmem, ?_⟩
  rw [heq]
  exact hp.index

/-- The candidates of two sessions have different keys. -/
theorem key_ne_of_disjoint (h : Session.Disjoint s t) (hc : c ∈ X.selected s)
    (hc' : c' ∈ X.selected t) : c.key ≠ c'.key := by
  intro heq
  obtain ⟨O, hO, hindex⟩ := exists_object_of_mem_selected hc
  obtain ⟨O', hO', hindex'⟩ := exists_object_of_mem_selected hc'
  -- The index determines the object, which belongs to one session.
  rw [← (key_inj.mp heq).1] at hindex'
  rw [X.objIndex_inj O O' _ hindex hindex'] at hO
  exact h O' hO hO'

/-- The sessions together select each pair of accesses once. -/
theorem nodup_keys_sessions :
    ((X.sessions.flatMap X.selected).map PhaseBCandidate.key).Nodup := by
  rw [List.map_flatMap, List.nodup_flatMap]
  refine ⟨fun s _ => nodup_keys_selected s, X.disjoint.imp fun {s t} hdisjoint => ?_⟩
  intro k hk hk'
  obtain ⟨c, hc, rfl⟩ := List.mem_map.mp hk
  obtain ⟨c', hc', heq⟩ := List.mem_map.mp hk'
  exact key_ne_of_disjoint hdisjoint hc hc' heq.symm

/-- The survivors of one thread set have different pairs. -/
theorem nodup_keys_survivors (ts : TidSet) :
    ((X.survivors ts).map PhaseBCandidate.key).Nodup :=
  (((List.filter_sublist).flatMap X.selected).map _).nodup nodup_keys_sessions

/-- No candidate survives twice in one thread set. -/
theorem nodup_survivors (ts : TidSet) : (X.survivors ts).Nodup :=
  (nodup_keys_survivors ts).of_map _

/-- The survivors of a thread set are what its sessions select. -/
theorem mem_survivors :
    c ∈ X.survivors ts ↔ ∃ s ∈ X.sessions, s.threads = ts ∧ c ∈ X.selected s := by
  simp [survivors, and_assoc]

/-! ### The groups -/

/-- Candidates with different keys are all unique. -/
theorem uniqueLoop_eq_self {seenKey : List String} {cs : List PhaseBCandidate}
    (hnodup : (cs.map PhaseBCandidate.key).Nodup) (hseen : ∀ c ∈ cs, c.key ∉ seenKey) :
    uniqueLoop seenKey cs = cs := by
  induction cs generalizing seenKey with
  | nil => rfl
  | cons c cs ih =>
    obtain ⟨hc, hcs⟩ := List.nodup_cons.mp hnodup
    rw [uniqueLoop, if_neg (hseen c (by simp)), ih hcs]
    intro d hd
    rw [List.mem_cons, not_or]
    refine ⟨fun heq => hc ?_, hseen d (by simp [hd])⟩
    rw [← heq]
    exact List.mem_map_of_mem hd

/-- A group of `byThreadSet` has the survivors of its thread set. -/
theorem snd_of_mem_byThreadSet (hg : g ∈ X.byThreadSet) : g.2 = X.survivors g.1 := by
  -- The candidates of the group are those of its sessions, one after the other.
  have hgroup := eq_flatMap_group_of_mem_mergeByKey (f := Prod.snd) (by intro _ _ _; rfl)
    (by intro _ _; rfl) hg
  rw [hgroup, List.filter_map, List.flatMap_map, survivors]
  congr 1
  apply List.filter_congr
  intro s _
  simp [TidSet.toList_injective.eq_iff]

/-- The groups stand in the order of their thread sets, which are those of the sessions. -/
theorem map_fst_byThreadSet : X.byThreadSet.map Prod.fst = X.threadSets := by
  have hrep : Represents (fun g : CandidateGroup => g.1.toList) (fun _ => ()) (fun _ => 0)
      (X.sessions.map fun s => (s.threads, (X.compose s).composeVerdict.selected))
      X.byThreadSet := represents_mergeByKey (by intro _ _ _; rfl) (fun _ _ => rfl) _
  -- The sets are ordered by their lists, as `std::set` compares.
  have htotal : Std.Total fun a b : TidSet => a.toList ≤ b.toList := ⟨fun _ _ => le_total _ _⟩
  have htrans : IsTrans TidSet fun a b => a.toList ≤ b.toList := ⟨fun _ _ _ => le_trans⟩
  have hmap : ∀ l : List CandidateGroup,
      l.map (fun g => g.1.toList) = (l.map Prod.fst).map TidSet.toList := by
    intro l
    rw [List.map_map]
    rfl
  have hmem : ∀ ts, ts ∈ X.byThreadSet.map Prod.fst ↔ ts ∈ X.threadSets := by
    intro ts
    have hkeys := hrep.keys ts.toList
    rw [hmap, hmap, List.mem_map_of_injective TidSet.toList_injective,
      List.mem_map_of_injective TidSet.toList_injective] at hkeys
    rw [hkeys, threadSets, List.mem_insertionSort, List.mem_dedup, List.map_map]
    rfl
  have hnodup : (X.byThreadSet.map Prod.fst).Nodup := by
    have hkeys := hrep.nodup_keys
    rw [hmap] at hkeys
    exact hkeys.of_map _
  have hsorted : (X.byThreadSet.map Prod.fst).Pairwise fun a b => a.toList ≤ b.toList :=
    List.pairwise_map.mpr (hrep.sorted.imp fun hlt => hlt.le)
  have hantisymm : ∀ a b : TidSet, a.toList ≤ b.toList → b.toList ≤ a.toList → a = b :=
    fun _ _ hle hge => TidSet.toList_injective (le_antisymm hle hge)
  -- Both are sorted and have the same elements once.
  apply List.Perm.eq_of_pairwise (fun a b _ _ => hantisymm a b) hsorted
  · exact List.pairwise_insertionSort _ _
  · apply (List.perm_ext_iff_of_nodup hnodup ?_).mpr hmem
    exact (List.perm_insertionSort _ _).nodup_iff.mpr (List.nodup_dedup _)

/-- The second deduplication finds nothing. -/
theorem map_uniqueLoop_byThreadSet :
    (X.byThreadSet.map fun g => (g.1, uniqueLoop [] g.2)) = X.byThreadSet := by
  -- The keys of a group are apart, in one session and in two.
  have hunique : ∀ g ∈ X.byThreadSet, (g.1, uniqueLoop [] g.2) = g := by
    intro g hg
    have hnodup := nodup_keys_survivors (X := X) g.1
    rw [← snd_of_mem_byThreadSet hg] at hnodup
    rw [uniqueLoop_eq_self hnodup (by simp)]
  rw [List.map_congr_left hunique, List.map_id']

/-- The groups of the batch path, in the terms of the sessions. -/
theorem ordered_eq_reviewOrder : X.ordered = X.reviewOrder := by
  have hgroups : X.byThreadSet = X.threadSets.map fun ts => (ts, X.survivors ts) := by
    rw [← map_fst_byThreadSet, List.map_map]
    symm
    apply (List.map_congr_left fun g hg => ?_).trans (List.map_id _)
    exact Prod.ext rfl (snd_of_mem_byThreadSet hg).symm
  rw [ordered, map_uniqueLoop_byThreadSet, reviewOrder, ← hgroups]

/-- The review goes over the thread sets that have survivors. -/
theorem mem_reviewOrder : g ∈ X.reviewOrder ↔ g.2 = X.survivors g.1 ∧ g.2 ≠ [] := by
  rw [reviewOrder, arrange, List.mem_insertionSort, List.mem_filter]
  simp only [List.mem_map, Bool.not_eq_true', List.isEmpty_eq_false_iff]
  constructor
  · rintro ⟨⟨ts, -, rfl⟩, hne⟩
    exact ⟨rfl, hne⟩
  · rintro ⟨heq, hne⟩
    obtain ⟨c, hc⟩ := List.exists_mem_of_ne_nil _ hne
    obtain ⟨s, hs, hts, -⟩ := mem_survivors.mp (heq ▸ hc)
    have hthreads : g.1 ∈ X.threadSets := by
      rw [threadSets, List.mem_insertionSort, List.mem_dedup, ← hts]
      exact List.mem_map_of_mem hs
    exact ⟨⟨g.1, hthreads, Prod.ext rfl heq.symm⟩, hne⟩

/-- A batch holds at least one candidate. -/
theorem batchSize_pos : 0 < X.batchSize := Nat.lt_of_lt_of_le Nat.one_pos (le_max_left _ _)

/-- The blocks are the batches of the survivors of each thread set. -/
theorem mem_blocks : u ∈ X.blocks ↔ u.2 ∈ chunks X.batchSize (X.survivors u.1) := by
  simp only [blocks, List.mem_flatMap, List.mem_map]
  constructor
  · rintro ⟨g, hg, block, hblock, rfl⟩
    rw [← (mem_reviewOrder.mp hg).1]
    exact hblock
  · intro hblock
    -- A thread set with a block has a survivor, so its group is not dropped.
    have hne : X.survivors u.1 ≠ [] := by
      intro hnil
      obtain ⟨c, hc⟩ := List.exists_mem_of_ne_nil _ (ne_nil_of_mem_chunks batchSize_pos hblock)
      have hmem := (exists_mem_chunks_iff batchSize_pos).mp ⟨_, hblock, hc⟩
      rw [hnil] at hmem
      exact List.not_mem_nil hmem
    exact ⟨(u.1, X.survivors u.1), mem_reviewOrder.mpr ⟨rfl, hne⟩, u.2, hblock, rfl⟩

/-! ### Without phase C -/

/-- Numbering the hypotheses of a batch changes only their ids. -/
theorem map_withoutId_numbered (cs : List PhaseBCandidate) : (X.numbered cs).map withoutId =
    cs.map fun c => withoutId (phaseBToHypothesis X.base.object c 0) := by
  calc (X.numbered cs).map withoutId
      = (cs.zipIdx.map Prod.fst).map fun c =>
          withoutId (phaseBToHypothesis X.base.object c 0) := by
        rw [numbered, List.map_map, List.map_map]
        rfl
    _ = _ := by rw [List.zipIdx_map_fst]

/-- The groups have the candidates of the sessions. -/
theorem flatMap_ordered_perm :
    (X.ordered.flatMap Prod.snd).Perm (X.sessions.flatMap X.selected) := by
  -- The empty groups have no candidates to lose.
  have hnonempty : ∀ gs : List CandidateGroup,
      (gs.filter fun g => !g.2.isEmpty).flatMap Prod.snd = gs.flatMap Prod.snd := by
    intro gs
    induction gs with
    | nil => rfl
    | cons g gs ih =>
      rcases hg : g.2 with - | ⟨c, cs⟩
      · simp [hg, ih]
      · simp [hg, ih]
  have harrange : (X.ordered.flatMap Prod.snd).Perm (X.byThreadSet.flatMap Prod.snd) := by
    rw [ordered, map_uniqueLoop_byThreadSet, ← hnonempty X.byThreadSet]
    exact (List.perm_insertionSort _ _).flatMap_right _
  have hmerge : (X.byThreadSet.flatMap Prod.snd).Perm
      ((X.sessions.map fun s => (s.threads, X.selected s)).flatMap Prod.snd) :=
    flatMap_mergeByKey_perm (by intro _ _; rfl) _
  rw [List.flatMap_map] at hmerge
  exact harrange.trans hmerge

/-- A session with nothing selected adds nothing. -/
theorem directPerSession_eq : X.directPerSession = X.numbered (X.sessions.flatMap X.selected) := by
  rw [directPerSession]
  congr 2
  ext1 s
  show (if (X.selected s).length = 0 then [] else X.selected s) = X.selected s
  split_ifs with hkept
  · exact (List.length_eq_zero_iff.mp hkept).symm
  · rfl

/-- Without a model, batching reports the same hypotheses as going session by session, up to their
order and ids. -/
theorem direct_perm : (X.directBatch.map withoutId).Perm (X.directPerSession.map withoutId) := by
  rw [directBatch, directPerSession_eq, map_withoutId_numbered, map_withoutId_numbered]
  exact flatMap_ordered_perm.map _

/-! ### With phase C -/

/-- The state of the loops when some blocks are sent. -/
def BatchState.ofSent (r : List CandidateGroup × Bool) : BatchState :=
  ⟨r.1.length, r.2, r.1.map blockDialogue⟩

/-- The block is not passed over. -/
def wanted (X : ReviewInput) (u : CandidateGroup) : Bool := !X.skipsBlock u.2

/-- The loop over the blocks of a group. -/
theorem blockLoop_eq (gts : TidSet) (bs : List (List PhaseBCandidate))
    (sent : List CandidateGroup) :
    X.blockLoop gts bs (.ofSent (sent, false)) =
      .ofSent (cappedLoop X.wanted X.maxBatches (bs.map fun block => (gts, block)) sent) := by
  induction bs generalizing sent with
  | nil => rfl
  | cons block bs ih =>
    rw [blockLoop, List.map_cons, cappedLoop]
    by_cases hcap : X.maxBatches ≤ sent.length
    · rw [if_pos hcap, if_pos (show X.maxBatches ≤ (BatchState.ofSent (sent, false)).batchNo
        from hcap)]
      rfl
    · rw [if_neg hcap, if_neg (show ¬X.maxBatches ≤ (BatchState.ofSent (sent, false)).batchNo
        from hcap), ← ih]
      -- A block that is passed over changes nothing, any other one is counted and sent.
      by_cases hskip : X.skipsBlock block = true
      · simp [wanted, hskip]
      · simp [wanted, hskip, BatchState.ofSent]

/-- Behind the cap nothing changes. -/
theorem groupLoop_of_capHit {st : BatchState} (hcap : X.maxBatches ≤ st.batchNo)
    (hhit : st.capHit = true) (gs : List CandidateGroup) : X.groupLoop gs st = st := by
  rcases gs with - | ⟨g, gs⟩
  · rfl
  · rw [groupLoop, if_pos hcap, ← hhit]

/-- The loops over the groups and their blocks are one loop over all blocks. -/
theorem groupLoop_eq {gs : List CandidateGroup} (hgs : ∀ g ∈ gs, g.2 ≠ [])
    (sent : List CandidateGroup) :
    X.groupLoop gs (.ofSent (sent, false)) =
      .ofSent (cappedLoop X.wanted X.maxBatches
        (gs.flatMap fun g => (chunks X.batchSize g.2).map fun block => (g.1, block)) sent) := by
  induction gs generalizing sent with
  | nil => rfl
  | cons g gs ih =>
    rw [groupLoop, List.flatMap_cons, cappedLoop_append]
    obtain ⟨block, bs, hchunks⟩ :=
      List.exists_cons_of_ne_nil (chunks_ne_nil (X.batchSize_pos) (hgs g (by simp)))
    by_cases hcap : X.maxBatches ≤ sent.length
    · -- Both loops look for the cap first, and the group has a block.
      rw [if_pos (show X.maxBatches ≤ (BatchState.ofSent (sent, false)).batchNo from hcap),
        hchunks, List.map_cons, cappedLoop, if_pos hcap]
      rfl
    · rw [if_neg (show ¬X.maxBatches ≤ (BatchState.ofSent (sent, false)).batchNo from hcap),
        blockLoop_eq]
      generalize hr : cappedLoop X.wanted X.maxBatches
        ((chunks X.batchSize g.2).map fun block => (g.1, block)) sent = r
      obtain ⟨sent', hit⟩ := r
      cases hit with
      | false => exact ih (fun g' hg' => hgs g' (by simp [hg'])) sent'
      -- The inner loop has stopped: the cap is reached for the groups to come.
      | true =>
        have hreached : X.maxBatches ≤ sent'.length := by
          have hle := cap_le_of_stopped (congrArg Prod.snd hr)
          rwa [hr] at hle
        exact groupLoop_of_capHit hreached rfl gs

/-- The run of the batches is the capped loop over the blocks. -/
theorem batchRun_eq : X.batchRun = .ofSent (cappedLoop X.wanted X.maxBatches X.blocks []) := by
  rw [batchRun, ordered_eq_reviewOrder]
  exact groupLoop_eq (fun g hg => (mem_reviewOrder.mp hg).2) []

/-- The run says that it met the cap exactly if some wanted block was left over. -/
theorem capHit_iff : X.batchRun.capHit = true ↔ X.CapReached := by
  rw [batchRun_eq]
  show (cappedLoop X.wanted X.maxBatches X.blocks []).2 = true ↔ _
  rw [cappedLoop_stopped_iff, CapReached]
  simp only [List.length_nil, Nat.zero_add]
  rfl

/-- What is sent in batches if the cap is not reached. -/
theorem mem_dialogues_iff (hcap : X.batchRun.capHit = false) :
    (∃ b ∈ X.batchRun.dialogues, b.threads = ts ∧ c ∈ b.candidates) ↔
      ∃ block ∈ chunks X.batchSize (X.survivors ts), X.skipsBlock block = false ∧ c ∈ block := by
  rw [batchRun_eq] at hcap ⊢
  have hsent := cappedLoop_of_not_stopped hcap
  simp only [BatchState.ofSent, hsent, List.nil_append, List.mem_map, List.mem_filter, mem_blocks]
  constructor
  · rintro ⟨_, ⟨u, ⟨hblock, hwanted⟩, rfl⟩, rfl, hc⟩
    exact ⟨u.2, hblock, by simpa [wanted] using hwanted, hc⟩
  · rintro ⟨block, hblock, hskip, hc⟩
    exact ⟨_, ⟨(ts, block), ⟨hblock, by simpa [wanted] using hskip⟩, rfl⟩, rfl, hc⟩

/-- Going session by session, one dialogue is held for each session that is not skipped. -/
theorem mem_dialoguesPerSession {d : Dialogue} : d ∈ X.dialoguesPerSession ↔
    ∃ s ∈ X.sessions, X.skipsSession s = false ∧ d = ⟨s.objects, s.threads, X.selected s⟩ := by
  simp only [dialoguesPerSession, List.mem_map, List.mem_filter, Bool.not_eq_true', and_assoc]
  constructor
  · rintro ⟨s, hs, hskip, rfl⟩
    exact ⟨s, hs, hskip, rfl⟩
  · rintro ⟨s, hs, hskip, rfl⟩
    exact ⟨s, hs, hskip, rfl⟩

/-- If the cap is not reached, what the sessions send is sent in batches exactly if the blocks are
kept. -/
theorem calibrated_iff (hcap : X.batchRun.capHit = false) :
    (∀ d ∈ X.dialoguesPerSession, ∀ c ∈ d.candidates,
      ∃ b ∈ X.batchRun.dialogues, b.threads = d.threads ∧ c ∈ b.candidates) ↔ X.BlocksKept := by
  simp only [mem_dialogues_iff hcap]
  constructor
  · rintro h s hs hskip block hblock ⟨c, hc, hsel⟩
    -- The session sends the candidate, so some block with it is sent.
    have hd := mem_dialoguesPerSession.mpr ⟨s, hs, hskip, rfl⟩
    obtain ⟨block', hblock', hskip', hc'⟩ := h _ hd c hsel
    -- A candidate is in one block only.
    have heq : block' = block :=
      eq_of_mem_chunks batchSize_pos (nodup_survivors _) hblock' hblock hc' hc
    exact heq ▸ hskip'
  · intro h d hd c hc
    obtain ⟨s, hs, hskip, rfl⟩ := mem_dialoguesPerSession.mp hd
    -- The candidate is in some block, which is kept for the sake of its session.
    have hsurvives : c ∈ X.survivors s.threads := mem_survivors.mpr ⟨s, hs, rfl, hc⟩
    obtain ⟨block, hblock, hcb⟩ := (exists_mem_chunks_iff batchSize_pos).mpr hsurvives
    exact ⟨block, hblock, h s hs hskip block hblock ⟨c, hcb, hc⟩, hcb⟩

/-- The batch path covers the path session by session exactly if the cap is reached, or no block is
passed over that has a candidate of a session that is not. -/
theorem batchCovers_iff (X : ReviewInput) : X.BatchCovers ↔ X.CapReached ∨ X.BlocksKept := by
  constructor
  · intro h
    by_cases hcap : X.CapReached
    · exact Or.inl hcap
    · -- Without the cap every candidate of a dialogue has to be sent.
      have hhit : X.batchRun.capHit = false := by
        rw [← Bool.not_eq_true, capHit_iff]
        exact hcap
      exact Or.inr ((calibrated_iff hhit).mp (h.calibrated hhit))
  · intro h
    refine ⟨direct_perm, fun hhit => (calibrated_iff hhit).mpr ?_⟩
    rcases h with hcap | hkept
    · rw [← capHit_iff, hhit] at hcap
      cases hcap
    · exact hkept

end ReviewInput

/-! ### A block of the middle tier in a session with a high candidate -/

/-- A field that both handlers write, with another one in the same statement. -/
def pairedField (name : String) : SurfaceObject where
  name := name
  accesses :=
    [ ⟨⟨1, .write, 10, "dev->state = dev->count = v", false, ""⟩, "drv_ioctl", "drv_ioctl",
        "drv.c:10"⟩,
      ⟨⟨2, .write, 20, "dev->state = dev->count = 0", false, ""⟩, "drv_irq", "drv_irq",
        "drv.c:20"⟩ ]
  accessingThreadIds := ⟨[1, 2], TidSet.sorted_one_two⟩
  hasFreeOperation := false
  hasScalarTornAccess := false
  hasListMutation := false
  isSelfRace := false
  riskScore := 3

/-- One session with the two fields in automatic mode, and blocks of one candidate. The contract of
the first handler isolates one field and wants the accesses to the other one mediated. -/
def mixedSession : ReviewInput where
  base :=
    { tct := declaredEntries
      filters := ⟨none, none⟩
      threadById := fun t => if t = 1 then some 0 else if t = 2 then some 1 else none
      contractsByTid := fun t =>
        if t = 1 then
          some ⟨[⟨"dev->state", 0, [], [⟨"REGION_ISOLATED"⟩], []⟩,
            ⟨"dev->count", 1, [], [⟨"CONFLICT_MEDIATED"⟩], []⟩]⟩
        else none
      object := fun O => if O = 0 then pairedField "dev->state" else pairedField "dev->count"
      objIndex := surfaceIndex 2
      objs := []
      keepLow := false
      env := ⟨false, false, false, false, none, none, none, none⟩ }
  sessions := [⟨⟨[1, 2], TidSet.sorted_one_two⟩, [0, 1]⟩]
  flowPrior := ⟨false, [], []⟩
  calibrateMedOnly := none
  maxBatchesVar := none
  batchSizeVar := some 1
  objIndex_inj O O' i h h' := by
    obtain ⟨-, rfl⟩ : O < 2 ∧ (O : ℤ) = i := by simpa [surfaceIndex] using h
    exact (eq_of_surfaceIndex h').symm
  disjoint := List.pairwise_singleton _ _

/-- The second field is reviewed with its session, but not in its own block, although no cap is
reached. -/
theorem mixedSession_not_batchCovers : ¬mixedSession.BatchCovers := by
  intro h
  have hcap : mixedSession.batchRun.capHit = false := by decide +kernel
  have hlost : (mixedSession.dialoguesPerSession.any fun d => d.candidates.any fun c =>
      !mixedSession.batchRun.dialogues.any fun b =>
        b.threads = d.threads && c ∈ b.candidates) = true := by decide +kernel
  obtain ⟨d, hd, hlost⟩ := List.any_eq_true.mp hlost
  obtain ⟨c, hc, hlost⟩ := List.any_eq_true.mp hlost
  obtain ⟨b, hb, hthreads, hcb⟩ := h.calibrated hcap d hd c hc
  rw [Bool.not_eq_true', List.any_eq_false] at hlost
  exact hlost b hb (by simp [hthreads, hcb])

end Lace.PhaseB
