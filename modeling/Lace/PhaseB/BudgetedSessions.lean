import Lace.Library.Ranking
import Lace.PhaseB.Batch

/-!
# The session budget

The objects that stay are grouped by the threads that access them. Each group is sorted by the
priority of its objects and cut into chunks. A chunk is scored by its objects, with a penalty for
its threads, and the best chunks become the sessions, up to a cap.

## Main definitions

* `VulnerabilitySurface.clusters`: the groups;
* `SessionBudget.allChunks`: the chunks of all groups;
* `SessionBudget.buildBudgetedSessions`: the sessions;
* `BudgetedPartition`: the sessions are the best chunks of a partition of each group.

## Main results

* `objectsOnce_clusters`, `mem_clusters_iff`: each object is in one group, that of its own threads;
* `budgetedPartition`: the sessions of groups with each object once;
* `disjoint_sessions`: no object is reviewed twice.
-/

namespace Lace.PhaseB

open Library

/-! ### The surface -/

/-- `SharedObject`, with all its risk indicators: its priority reads some of them, and the agents
are shown the others. -/
structure RatedObject extends SurfaceObject where
  /-- `has_unprotected_write`. -/
  hasUnprotectedWrite : Bool
  /-- `has_cross_thread_rw`. -/
  hasCrossThreadRw : Bool
  /-- `has_missing_atomic_annotation`. -/
  hasMissingAtomicAnnotation : Bool
  /-- `has_inconsistent_locking`. -/
  hasInconsistentLocking : Bool
  /-- `has_read_dominated_lone_writer`. -/
  hasReadDominatedLoneWriter : Bool
  deriving DecidableEq, Repr

/-- `objectPriorityScore`. Without an object it is zero. -/
def objectPriorityScore (o : Option RatedObject) (flowPrior : FlowPrior) : ℤ :=
  match o with
  | none => 0
  | some o =>
      o.riskScore + (if o.hasFreeOperation then 600 else 0) +
        (if o.hasListMutation then 300 else 0) + (if o.isSelfRace then 250 else 0) +
        (if o.hasUnprotectedWrite then 120 else 0) + (if o.hasCrossThreadRw then 80 else 0) +
        (if o.hasMissingAtomicAnnotation then 40 else 0) +
        (o.toSurfaceObject.flowPriorScore flowPrior : ℤ)

/-- `VulnerabilitySurface`: what the surface hands to the contract mode. -/
structure VulnerabilitySurface where
  /-- `shared_objects`. -/
  sharedObjects : List RatedObject
  /-- `total_thread_count`. -/
  totalThreadCount : ℕ
  /-- `conflicting_pair_count`. -/
  conflictingPairCount : ℕ

/-- The objects with one thread set. -/
abbrev Cluster := TidSet × List ObjectRef

/-- `ClusterMap`: the clusters in the order of their thread sets. -/
structure ClusterMap where
  /-- The clusters. -/
  entries : List Cluster
  /-- Each thread set occurs once. -/
  sorted : entries.Pairwise fun c d => c.1.toList < d.1.toList

/-- Each object occurs once in the clusters. -/
def ClusterMap.ObjectsOnce (C : ClusterMap) : Prop := (C.entries.flatMap Prod.snd).Nodup

instance (C : ClusterMap) : Decidable C.ObjectsOnce := inferInstanceAs (Decidable (List.Nodup _))

namespace VulnerabilitySurface

variable (S : VulnerabilitySurface)

/-- `hugeSurface`: the surface is so large that the smallest budgets apply. -/
def hugeSurface : Bool :=
  1500 ≤ S.conflictingPairCount || 120 ≤ S.totalThreadCount || 800 ≤ S.sharedObjects.length

/-- `largeSurface`: the surface is so large that smaller budgets apply. -/
def largeSurface : Bool :=
  S.hugeSurface || 500 ≤ S.conflictingPairCount || 60 ≤ S.totalThreadCount ||
    300 ≤ S.sharedObjects.length

/-- The object at a position is put into a cluster: it stays, and several threads access it or it
races with itself. -/
def clustered (objKeep : List ℤ) (o : RatedObject) (oi : ObjectRef) : Bool :=
  (oi : ℤ) ∈ objKeep && !(o.accessingThreadIds.toList.length < 2 && !o.isSelfRace)

/-- The entries that the loop over the objects makes, one for each object. -/
def clusterEntries (objKeep : List ℤ) : List Cluster :=
  (S.sharedObjects.zipIdx.filter fun p => clustered objKeep p.1 p.2).map fun p =>
    (p.1.accessingThreadIds, [p.2])

/-- `clusters`: the objects with the same threads go together. -/
def clusters (objKeep : List ℤ) : ClusterMap where
  entries :=
    mergeByKey (fun c => c.1.toList) (fun c d => (c.1, c.2 ++ d.2)) (S.clusterEntries objKeep)
  sorted :=
    (represents_mergeByKey (by intro _ _ _; rfl) (fun _ _ => rfl) _ :
      Represents (fun c : Cluster => c.1.toList) (fun _ => ()) (fun _ => 0) _ _).sorted

end VulnerabilitySurface

/-! ### The sessions -/

/-- `Chunk`: some objects of a cluster. -/
structure Chunk where
  /-- `threads`. -/
  threads : TidSet
  /-- `objects`. -/
  objects : List ObjectRef
  /-- `score`. -/
  score : ℤ
  deriving DecidableEq

namespace Chunk

/-- The order of the chunks: by score, number of objects, and number of threads. -/
def better (a b : Chunk) : Bool :=
  if a.score ≠ b.score then b.score < a.score
  else if a.objects.length ≠ b.objects.length then b.objects.length < a.objects.length
  else a.threads.toList.length < b.threads.toList.length

/-- The session of a chunk. -/
def session (ch : Chunk) : Session := ⟨ch.threads, ch.objects⟩

end Chunk

/-- What `buildBudgetedSessions` reads besides the clusters and the size of a chunk. -/
structure SessionBudget where
  /-- `surface`. -/
  surface : VulnerabilitySurface
  /-- `flowPrior`. -/
  flowPrior : FlowPrior
  /-- `LACE_SESSION_CAP`. -/
  sessionCapVar : Option ℤ
  /-- `LACE_DISABLE_SESSION_BUDGET`, if it is set. -/
  disableVar : Option (List Char)

namespace SessionBudget

variable (B : SessionBudget)

/-- The priority of an object. -/
def priority (O : ObjectRef) : ℤ := objectPriorityScore B.surface.sharedObjects[O]? B.flowPrior

/-- `sorted`: the objects of a cluster, sorted stably by their priority. -/
def sorted (objs : List ObjectRef) : List ObjectRef :=
  ranked (fun a b => B.priority b < B.priority a) objs

/-- The chunk of some objects. A large thread set is penalized. -/
def chunkOf (ts : TidSet) (objs : List ObjectRef) : Chunk where
  threads := ts
  objects := objs
  score := (objs.map B.priority).sum - ts.toList.length * 3

/-- The chunks of a cluster. -/
def clusterChunks (maxObjsPerSession : ℕ) (c : Cluster) : List Chunk :=
  (chunks maxObjsPerSession (B.sorted c.2)).map (B.chunkOf c.1)

/-- `chunks`: the chunks of all clusters. -/
def allChunks (C : ClusterMap) (maxObjsPerSession : ℕ) : List Chunk :=
  C.entries.flatMap (B.clusterChunks maxObjsPerSession)

/-- `defaultCap`: how many sessions a surface of that size gets. -/
def defaultCap : ℕ :=
  if B.surface.hugeSurface then 35 else if B.surface.largeSurface then 50 else 70

/-- `cap`: how many sessions there may be, from the environment or by default. -/
def cap : ℕ := envInt B.sessionCapVar B.defaultCap

/-- `sessionBudgetEnabled`: the variable is not set, empty, or starts with a zero. -/
def sessionBudgetEnabled : Bool :=
  match B.disableVar with
  | none => true
  | some [] => true
  | some (x :: _) => x = '0'

/-- `limit`: how many chunks become sessions. -/
def limit (chunks : List Chunk) : ℕ :=
  if B.sessionBudgetEnabled then min chunks.length B.cap else chunks.length

/-- `buildBudgetedSessions`: the best chunks become sessions, as many as the budget allows. -/
def buildBudgetedSessions (C : ClusterMap) (maxObjsPerSession : ℕ) : List Session :=
  let chunks := ranked Chunk.better (B.allChunks C maxObjsPerSession)
  (chunks.take (B.limit chunks)).map Chunk.session

/-- `sessions`: those of the clusters of the surface. A session has ten objects at most. -/
def sessions (objKeep : List ℤ) : List Session :=
  B.buildBudgetedSessions (B.surface.clusters objKeep) 10

/-- The objects in the chunks with a thread set, one chunk after the other. -/
def objectsOf (C : ClusterMap) (maxObjsPerSession : ℕ) (ts : TidSet) : List ObjectRef :=
  ((B.allChunks C maxObjsPerSession).filter fun ch => ch.threads = ts).flatMap Chunk.objects

/-- The sessions are the best chunks of a partition of each cluster. -/
structure BudgetedPartition (C : ClusterMap) (maxObjsPerSession : ℕ) : Prop where
  /-- The chunks with the thread set of a cluster make up its objects. -/
  perm : ∀ c ∈ C.entries, (B.objectsOf C maxObjsPerSession c.1).Perm c.2
  /-- In them no object comes before one of higher priority. -/
  ordered : ∀ c ∈ C.entries, (B.objectsOf C maxObjsPerSession c.1).Pairwise fun O O' =>
    B.priority O' ≤ B.priority O
  /-- A chunk has objects, but not too many. -/
  size : ∀ ch ∈ B.allChunks C maxObjsPerSession,
    ch.objects ≠ [] ∧ ch.objects.length ≤ maxObjsPerSession
  /-- A session is a chunk with the threads of the cluster that its objects are from. -/
  session : ∀ s ∈ B.buildBudgetedSessions C maxObjsPerSession,
    ∃ c ∈ C.entries, ∃ ch ∈ B.allChunks C maxObjsPerSession,
      ch.threads = c.1 ∧ ch.objects ⊆ c.2 ∧ s = ⟨c.1, ch.objects⟩
  /-- No object is in two sessions. -/
  disjoint : (B.buildBudgetedSessions C maxObjsPerSession).Pairwise Session.Disjoint
  /-- The budget leaves as many sessions as the cap allows. -/
  length : (B.buildBudgetedSessions C maxObjsPerSession).length =
    if B.sessionBudgetEnabled then min B.cap (B.allChunks C maxObjsPerSession).length
    else (B.allChunks C maxObjsPerSession).length
  /-- A chunk that is left out is not better than one that becomes a session. -/
  cut : ∀ a ∈ B.allChunks C maxObjsPerSession, ∀ b ∈ B.allChunks C maxObjsPerSession,
    a.session ∈ B.buildBudgetedSessions C maxObjsPerSession →
    b.session ∉ B.buildBudgetedSessions C maxObjsPerSession → b.better a = false

end SessionBudget

/-! ### The clusters hold each object once -/

namespace VulnerabilitySurface

variable {S : VulnerabilitySurface} {objKeep : List ℤ} {c : Cluster} {O : ObjectRef}

/-- The entries hold the positions of the objects that are put into a cluster. -/
theorem flatMap_clusterEntries : (S.clusterEntries objKeep).flatMap Prod.snd =
    (S.sharedObjects.zipIdx.filter fun p => clustered objKeep p.1 p.2).map Prod.snd := by
  rw [clusterEntries, List.flatMap_map, List.map_eq_flatMap]

/-- Each object is in one cluster. -/
theorem objectsOnce_clusters : (S.clusters objKeep).ObjectsOnce := by
  have hperm : ((S.clusters objKeep).entries.flatMap Prod.snd).Perm
      ((S.clusterEntries objKeep).flatMap Prod.snd) :=
    flatMap_mergeByKey_perm (by intro _ _; rfl) _
  rw [ClusterMap.ObjectsOnce, hperm.nodup_iff, flatMap_clusterEntries]
  have hpositions : (S.sharedObjects.zipIdx.map Prod.snd).Nodup := by
    rw [List.zipIdx_map_snd]
    exact List.nodup_range'
  exact hpositions.sublist (List.filter_sublist.map _)

/-- The cluster of a thread set holds the objects with these threads that are put into one. -/
theorem mem_clusters_iff (hc : c ∈ (S.clusters objKeep).entries) : O ∈ c.2 ↔
    ∃ o, S.sharedObjects[O]? = some o ∧ clustered objKeep o O = true ∧
      o.accessingThreadIds = c.1 := by
  have hgroup := eq_flatMap_group_of_mem_mergeByKey (f := Prod.snd) (by intro _ _ _; rfl)
    (by intro _ _; rfl) hc
  rw [hgroup]
  simp only [List.mem_flatMap, List.mem_filter, clusterEntries, List.mem_map, Prod.exists,
    List.mk_mem_zipIdx_iff_getElem?, decide_eq_true_eq]
  constructor
  · rintro ⟨ts, objs, ⟨⟨o, oi, ⟨ho, hclustered⟩, heq⟩, hts⟩, hO⟩
    obtain ⟨rfl, rfl⟩ := Prod.mk.inj heq
    obtain rfl := List.mem_singleton.mp hO
    exact ⟨o, ho, hclustered, TidSet.toList_injective hts⟩
  · rintro ⟨o, ho, hclustered, hts⟩
    exact ⟨_, [O], ⟨⟨o, O, ⟨ho, hclustered⟩, rfl⟩, congrArg TidSet.toList hts⟩, by simp⟩

end VulnerabilitySurface

/-! ### The chunks of a cluster -/

/-- No two clusters have the same thread set. -/
theorem ClusterMap.nodup_threads (C : ClusterMap) : (C.entries.map Prod.fst).Nodup :=
  List.pairwise_map.mpr (C.sorted.imp fun hlt heq => hlt.ne (congrArg TidSet.toList heq))

namespace SessionBudget

variable {B : SessionBudget} {C : ClusterMap} {n : ℕ} {c : Cluster} {ch ch' : Chunk}

/-- The chunks of a cluster make up its sorted objects. -/
theorem flatMap_clusterChunks (hn : 0 < n) :
    (B.clusterChunks n c).flatMap Chunk.objects = B.sorted c.2 := by
  rw [clusterChunks, List.flatMap_map]
  calc (chunks n (B.sorted c.2)).flatMap (fun objs => objs)
      = (chunks n (B.sorted c.2)).flatten := List.flatMap_id'
    _ = B.sorted c.2 := flatten_chunks hn

/-- The chunks are those of the clusters, cut from their sorted objects. -/
theorem mem_allChunks_iff : ch ∈ B.allChunks C n ↔
    ∃ c ∈ C.entries, ∃ objs ∈ chunks n (B.sorted c.2), B.chunkOf c.1 objs = ch := by
  simp only [allChunks, clusterChunks, List.mem_flatMap, List.mem_map]

/-- Every chunk of a cluster has the cluster's threads. -/
theorem threads_of_mem_clusterChunks (hch : ch ∈ B.clusterChunks n c) : ch.threads = c.1 := by
  obtain ⟨objs, -, rfl⟩ := List.mem_map.mp hch
  rfl

/-- The chunks with the threads of a cluster are its own. -/
theorem filter_allChunks (hc : c ∈ C.entries) :
    ((B.allChunks C n).filter fun ch => ch.threads = c.1) = B.clusterChunks n c := by
  obtain ⟨before, after, heq⟩ := List.append_of_mem hc
  have hnodup := C.nodup_threads
  rw [heq, List.map_append, List.map_cons, List.nodup_middle, ← List.map_append] at hnodup
  -- No other cluster has these threads.
  have hother : ∀ l ⊆ before ++ after,
      l.flatMap (fun d => (B.clusterChunks n d).filter fun ch => ch.threads = c.1) = [] := by
    intro l hl
    rw [List.flatMap_eq_nil_iff]
    intro d hd
    rw [List.filter_eq_nil_iff]
    intro ch hch hts
    rw [threads_of_mem_clusterChunks hch, decide_eq_true_eq] at hts
    exact (List.nodup_cons.mp hnodup).1 (hts ▸ List.mem_map_of_mem (hl hd))
  have hself : ((B.clusterChunks n c).filter fun ch => ch.threads = c.1) = B.clusterChunks n c :=
    List.filter_eq_self.mpr fun ch hch => decide_eq_true (threads_of_mem_clusterChunks hch)
  rw [allChunks, List.filter_flatMap, heq, List.flatMap_append, List.flatMap_cons,
    hother before (List.subset_append_left _ _), hother after (List.subset_append_right _ _), hself,
    List.nil_append, List.append_nil]

/-- The chunks of a cluster hold its objects in sorted order. -/
theorem objectsOf_eq (hn : 0 < n) (hc : c ∈ C.entries) :
    B.objectsOf C n c.1 = B.sorted c.2 := by
  rw [objectsOf, filter_allChunks hc, flatMap_clusterChunks hn]

/-- A chunk is a part of its cluster. -/
theorem objects_subset (hn : 0 < n) {objs : List ObjectRef}
    (hobjs : objs ∈ chunks n (B.sorted c.2)) : objs ⊆ c.2 := by
  intro O hO
  exact mem_ranked.mp ((exists_mem_chunks_iff hn).mp ⟨objs, hobjs, hO⟩)

/-- The objects are ranked by their priority, the highest first. -/
theorem ranksBy_priority : RanksBy (fun O => OrderDual.toDual (B.priority O))
    fun O O' => B.priority O' < B.priority O := by
  intro O O'
  rw [decide_eq_true_eq]
  exact OrderDual.toDual_lt_toDual.symm

/-- Sorting puts no object before one of higher priority. -/
theorem pairwise_sorted (objs : List ObjectRef) :
    (B.sorted objs).Pairwise fun O O' => B.priority O' ≤ B.priority O := by
  refine (pairwise_ranked ranksBy_priority).imp fun h => ?_
  rwa [decide_eq_false_iff_not, not_lt] at h

/-! ### The chunks that become sessions -/

/-- The chunks are ranked by their score, number of objects and number of threads. -/
theorem ranksBy_better : RanksBy
    (fun ch : Chunk => toLex (-ch.score, toLex (-(ch.objects.length : ℤ), ch.threads.toList.length)))
    Chunk.better := by
  intro a b
  simp only [Prod.Lex.toLex_lt_toLex, neg_lt_neg_iff, neg_inj, Chunk.better]
  split
  next hscore => simp [hscore]
  next hscore =>
    rw [not_not] at hscore
    split
    next hlength => simp [hscore, hlength]
    next hlength =>
      rw [not_not] at hlength
      simp [hscore, hlength]

/-- The score of a chunk is determined by its threads and objects. -/
theorem eq_of_session_eq (h : ch ∈ B.allChunks C n) (h' : ch' ∈ B.allChunks C n)
    (hsession : ch.session = ch'.session) : ch = ch' := by
  obtain ⟨c, -, objs, -, rfl⟩ := mem_allChunks_iff.mp h
  obtain ⟨c', -, objs', -, rfl⟩ := mem_allChunks_iff.mp h'
  obtain ⟨hts, hobjs⟩ := Session.mk.inj hsession
  exact congrArg₂ B.chunkOf hts hobjs

/-- The chunks make up the objects of the clusters. -/
theorem flatMap_allChunks_perm (hn : 0 < n) :
    ((B.allChunks C n).flatMap Chunk.objects).Perm (C.entries.flatMap Prod.snd) := by
  rw [allChunks, List.flatMap_assoc]
  refine List.Perm.flatMap_left _ fun c _ => ?_
  rw [flatMap_clusterChunks hn]
  exact ranked_perm

/-- The limit is at most the number of chunks. -/
theorem limit_le (l : List Chunk) : B.limit l ≤ l.length := by
  unfold limit
  split
  · exact min_le_left _ _
  · exact le_rfl

/-- There are as many sessions as chunks, up to the cap of the budget. -/
theorem length_buildBudgetedSessions : (B.buildBudgetedSessions C n).length =
    if B.sessionBudgetEnabled then min B.cap (B.allChunks C n).length
    else (B.allChunks C n).length := by
  simp only [buildBudgetedSessions, List.length_map, List.length_take, min_eq_left (limit_le _)]
  rw [limit, length_ranked, min_comm]

/-- The sessions are the chunks that are ranked within the limit. -/
theorem mem_buildBudgetedSessions_iff {s : Session} : s ∈ B.buildBudgetedSessions C n ↔
    ∃ ch ∈ (ranked Chunk.better (B.allChunks C n)).take
      (B.limit (ranked Chunk.better (B.allChunks C n))), ch.session = s := List.mem_map

/-- Sessions of clusters that hold each object once have no object in common. -/
theorem disjoint_buildBudgetedSessions (hC : C.ObjectsOnce) (hn : 0 < n) :
    (B.buildBudgetedSessions C n).Pairwise Session.Disjoint := by
  have hnodup : ((ranked Chunk.better (B.allChunks C n)).flatMap Chunk.objects).Nodup :=
    ((ranked_perm.flatMap_right _).trans (flatMap_allChunks_perm hn)).nodup_iff.mpr hC
  have hdisjoint := (List.nodup_flatMap.mp hnodup).2
  refine List.pairwise_map.mpr ((hdisjoint.sublist (List.take_sublist _ _)).imp fun h => ?_)
  exact fun O hO hO' => h hO hO'

/-- The sessions of a budget are the best chunks of a partition of each cluster. -/
theorem budgetedPartition (B : SessionBudget) (C : ClusterMap) (maxObjsPerSession : ℕ)
    (hC : C.ObjectsOnce) (hpos : 0 < maxObjsPerSession) :
    B.BudgetedPartition C maxObjsPerSession where
  perm c hc := by
    rw [objectsOf_eq hpos hc]
    exact ranked_perm
  ordered c hc := by
    rw [objectsOf_eq hpos hc]
    exact pairwise_sorted c.2
  size ch hch := by
    obtain ⟨c, -, objs, hobjs, rfl⟩ := mem_allChunks_iff.mp hch
    exact ⟨ne_nil_of_mem_chunks hpos hobjs, length_le_of_mem_chunks hobjs⟩
  session s hs := by
    obtain ⟨ch, htake, rfl⟩ := mem_buildBudgetedSessions_iff.mp hs
    have hch : ch ∈ B.allChunks C maxObjsPerSession := mem_ranked.mp (List.mem_of_mem_take htake)
    obtain ⟨c, hc, objs, hobjs, rfl⟩ := mem_allChunks_iff.mp hch
    exact ⟨c, hc, B.chunkOf c.1 objs, hch, rfl, objects_subset hpos hobjs, rfl⟩
  disjoint := disjoint_buildBudgetedSessions hC hpos
  length := length_buildBudgetedSessions
  cut a ha b hb hin hout := by
    obtain ⟨a', htake, hsession⟩ := mem_buildBudgetedSessions_iff.mp hin
    have ha' : a' ∈ B.allChunks C maxObjsPerSession := mem_ranked.mp (List.mem_of_mem_take htake)
    obtain rfl := eq_of_session_eq ha' ha hsession
    -- A chunk that is not before the cut is behind it.
    have hranked : b ∈ ranked Chunk.better (B.allChunks C maxObjsPerSession) := mem_ranked.mpr hb
    rw [← List.take_append_drop (B.limit (ranked Chunk.better (B.allChunks C maxObjsPerSession)))
      (ranked Chunk.better (B.allChunks C maxObjsPerSession)), List.mem_append] at hranked
    rcases hranked with hbefore | hbehind
    · exact absurd (mem_buildBudgetedSessions_iff.mpr ⟨b, hbefore, rfl⟩) hout
    · exact not_better_of_mem_drop ranksBy_better htake hbehind

/-- No object is reviewed twice. -/
theorem disjoint_sessions (objKeep : List ℤ) : (B.sessions objKeep).Pairwise Session.Disjoint :=
  disjoint_buildBudgetedSessions VulnerabilitySurface.objectsOnce_clusters (by decide)

end SessionBudget

/-! ### A budget of two sessions -/

/-- An object without accesses, with a thread set and a risk score. -/
def plainObject (ts : TidSet) (hasFree : Bool) (riskScore : ℤ) : RatedObject where
  name := ""
  accesses := []
  accessingThreadIds := ts
  hasFreeOperation := hasFree
  hasScalarTornAccess := false
  hasListMutation := false
  isSelfRace := false
  riskScore := riskScore
  hasUnprotectedWrite := false
  hasCrossThreadRw := false
  hasMissingAtomicAnnotation := false
  hasInconsistentLocking := false
  hasReadDominatedLoneWriter := false

/-- Three objects of two clusters, in sessions of one object each, of which two are left. -/
def twoSessionBudget : SessionBudget where
  surface :=
    { sharedObjects :=
        [ plainObject ⟨[1, 2], TidSet.sorted_one_two⟩ false 3,
          plainObject ⟨[2, 3], by decide⟩ true 1,
          plainObject ⟨[1, 2], TidSet.sorted_one_two⟩ false 5 ]
      totalThreadCount := 3
      conflictingPairCount := 2 }
  flowPrior := ⟨false, [], []⟩
  sessionCapVar := some 2
  disableVar := none

/-- The object with the lowest score is left out. -/
theorem twoSessionBudget_budgetedPartition :
    twoSessionBudget.buildBudgetedSessions (twoSessionBudget.surface.clusters [0, 1, 2]) 1 =
        [⟨⟨[2, 3], by decide⟩, [1]⟩, ⟨⟨[1, 2], TidSet.sorted_one_two⟩, [2]⟩] ∧
      twoSessionBudget.BudgetedPartition (twoSessionBudget.surface.clusters [0, 1, 2]) 1 :=
  ⟨by decide +kernel,
    twoSessionBudget.budgetedPartition _ 1 (by decide +kernel) Nat.one_pos⟩

end Lace.PhaseB
