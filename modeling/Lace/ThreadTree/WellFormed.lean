import Mathlib.Data.List.Nodup
import Mathlib.Data.List.Pairwise
import Lace.ThreadTree.Build

/-!
# The thread tree is well-formed

No thread occurs twice in the tree that `build` leaves, and all threads have their parents in it.
The threads are compared in the order in which they were added: the entry threads come first, and
the thread of a fork is told from all threads before it by the tests of `createThread`.

## Main definitions

* `TreeState.WellFormed`: the threads form a tree without duplicates;
* `TreeState.Inv`: the invariant of the construction.

## Main results

* `inv_entries`, `inv_loop`: the two loops keep the invariant;
* `forkNode_mem_build`: a thread is forked at a node of its parent;
* `build_wellFormed`: the tree is well-formed.
-/

namespace Lace

open Library Library.Forest

/-! ### What later steps leave of a thread -/

namespace ThreadObject

/-- A later step leaves what identifies the thread, its nodes, and its children. -/
structure Keeps (o o' : ThreadObject) : Prop where
  id_eq : o'.id = o.id
  parent_eq : o'.parent = o.parent
  forkNode_eq : o'.forkNode = o.forkNode
  main_eq : o'.threadMainFunction = o.threadMainFunction
  isMain_eq : o'.isMainThread = o.isMainThread
  nodes_eq : o'.nodes = o.nodes
  children_subset : o.children ⊆ o'.children

/-- An object keeps what it has. -/
theorem Keeps.refl (o : ThreadObject) : o.Keeps o :=
  ⟨rfl, rfl, rfl, rfl, rfl, rfl, List.Subset.refl _⟩

/-- A new child changes nothing else of a thread. -/
theorem keeps_addChild (o : ThreadObject) (t : ThreadId) :
    o.Keeps { o with children := o.children ++ [t] } :=
  ⟨rfl, rfl, rfl, rfl, rfl, rfl, List.subset_append_left _ _⟩

end ThreadObject

/-! ### Well-formed trees -/

namespace TreeState

variable (G : ForkGraph) (S : TreeState)

/-- The node of the main function of a thread. -/
def entryNode (t : ThreadId) : Option NodeId := (S.thread t).threadMainFunction.map G.getFuncNode

/-- The location of the fork node of a thread. -/
def forkLoc (t : ThreadId) : NodeLoc := G.nodeLoc (S.thread t).forkNode

/-- The threads form a tree in which no thread occurs twice. -/
structure WellFormed : Prop where
  /-- The ids are distinct. -/
  id_inj : ∀ t ∈ S.threads, ∀ u ∈ S.threads, (S.thread t).id = (S.thread u).id → t = u
  /-- A thread that is no entry thread has a parent among the threads. -/
  parent_mem : ∀ t ∈ S.threads, (S.thread t).isMainThread = false →
    ∃ p ∈ S.threads, S.parent t = some p
  /-- No thread is above itself. -/
  acyclic : ∀ t ∈ S.threads, ¬Below S.parent t t
  /-- Two threads that are no entry threads have different fork nodes. -/
  forkNode_inj : ∀ t ∈ S.threads, ∀ u ∈ S.threads, (S.thread t).isMainThread = false →
    (S.thread u).isMainThread = false → (S.thread t).forkNode = (S.thread u).forkNode → t = u
  /-- They differ in the file or the line of the fork. -/
  forkLoc_inj : ∀ t ∈ S.threads, ∀ u ∈ S.threads, (S.thread t).isMainThread = false →
    (S.thread u).isMainThread = false →
    (S.forkLoc G t).fileName = (S.forkLoc G u).fileName →
    (S.forkLoc G t).lineNumber = (S.forkLoc G u).lineNumber → t = u
  /-- A thread that is no entry thread shares its entry function node with no other thread. -/
  entryNode_inj : ∀ t ∈ S.threads, ∀ u ∈ S.threads, (S.thread u).isMainThread = false →
    S.entryNode G t = S.entryNode G u → t = u

/-! ### The invariant of the construction -/

/-- What tells a thread from one that was added later. -/
structure Apart (t u : ThreadId) : Prop where
  entries_first : S.parent u = none → S.parent t = none
  forkNode_ne : S.parent u ≠ none → (S.thread t).forkNode ≠ (S.thread u).forkNode
  forkLoc_ne : S.parent t ≠ none → S.parent u ≠ none →
    (S.forkLoc G t).fileName = (S.forkLoc G u).fileName →
    (S.forkLoc G t).lineNumber ≠ (S.forkLoc G u).lineNumber
  entryNode_ne : S.parent u ≠ none → S.entryNode G t ≠ S.entryNode G u

/-- The invariant of `build` about the threads. -/
structure Inv : Prop where
  lt_allocated : ∀ t ∈ S.threads, t < S.allocated
  ids : (S.threads.map fun t => (S.thread t).id) = List.range S.threads.length
  isMain_iff : ∀ t ∈ S.threads, (S.thread t).isMainThread = true ↔ S.parent t = none
  parent_mem : ∀ t ∈ S.threads, ∀ p, S.parent t = some p →
    p ∈ S.threads ∧ p < t ∧ t ∈ (S.thread p).children ∧
      (S.thread t).forkNode ∈ (S.thread p).nodes
  fork_type : ∀ t ∈ S.threads, S.parent t ≠ none → G.type (S.thread t).forkNode = .fork
  apart : S.threads.Pairwise (S.Apart G)

/-- The invariant about the queue of forks. -/
def Queued (queue : List (NodeId × ThreadId)) : Prop :=
  ∀ x ∈ queue, x.2 ∈ S.threads ∧ G.type x.1 = .fork ∧ x.1 ∈ (S.thread x.2).nodes

variable {G S} {S' : TreeState} {t u v p : ThreadId}

/-- A thread that keeps its data keeps its parent. -/
theorem parent_eq_of_keeps (h : (S.thread t).Keeps (S'.thread t)) : S'.parent t = S.parent t :=
  h.parent_eq

/-- Two threads that keep their data stay apart. -/
theorem Apart.of_keeps (h : S.Apart G t u) (ht : (S.thread t).Keeps (S'.thread t))
    (hu : (S.thread u).Keeps (S'.thread u)) : S'.Apart G t u := by
  have hnode : ∀ {w}, (S.thread w).Keeps (S'.thread w) → S'.entryNode G w = S.entryNode G w :=
    fun hw => by rw [entryNode, entryNode, hw.main_eq]
  have hloc : ∀ {w}, (S.thread w).Keeps (S'.thread w) → S'.forkLoc G w = S.forkLoc G w :=
    fun hw => by rw [forkLoc, forkLoc, hw.forkNode_eq]
  constructor
  · rw [parent_eq_of_keeps ht, parent_eq_of_keeps hu]
    exact h.entries_first
  · rw [parent_eq_of_keeps hu, ht.forkNode_eq, hu.forkNode_eq]
    exact h.forkNode_ne
  · rw [parent_eq_of_keeps ht, parent_eq_of_keeps hu, hloc ht, hloc hu]
    exact h.forkLoc_ne
  · rw [parent_eq_of_keeps hu, hnode ht, hnode hu]
    exact h.entryNode_ne

/-- The queue stays well formed while the threads keep their data. -/
theorem Queued.of_keeps {queue : List (NodeId × ThreadId)} (h : S.Queued G queue)
    (hthreads : S.threads ⊆ S'.threads)
    (hold : ∀ t ∈ S.threads, (S.thread t).Keeps (S'.thread t)) : S'.Queued G queue := by
  intro x hx
  obtain ⟨hmem, htype, hnode⟩ := h x hx
  exact ⟨hthreads hmem, htype, (hold _ hmem).nodes_eq ▸ hnode⟩

/-- The invariant holds before the first thread. -/
theorem inv_empty : empty.Inv G where
  lt_allocated _ ht := absurd ht List.not_mem_nil
  ids := rfl
  isMain_iff _ ht := absurd ht List.not_mem_nil
  parent_mem _ ht := absurd ht List.not_mem_nil
  fork_type _ ht := absurd ht List.not_mem_nil
  apart := List.Pairwise.nil

namespace Inv

/-- A step that adds no thread keeps the invariant. -/
theorem of_keeps (h : S.Inv G) (hthreads : S'.threads = S.threads)
    (halloc : S.allocated ≤ S'.allocated)
    (hold : ∀ t ∈ S.threads, (S.thread t).Keeps (S'.thread t)) : S'.Inv G where
  lt_allocated t ht := (h.lt_allocated t (hthreads ▸ ht)).trans_le halloc
  ids := by
    rw [hthreads, ← h.ids]
    exact List.map_congr_left fun t ht => (hold t ht).id_eq
  isMain_iff t ht := by
    rw [hthreads] at ht
    rw [(hold t ht).isMain_eq, parent_eq_of_keeps (hold t ht)]
    exact h.isMain_iff t ht
  parent_mem t ht p hp := by
    rw [hthreads] at ht ⊢
    rw [parent_eq_of_keeps (hold t ht)] at hp
    obtain ⟨hmem, hlt, hchild, hnode⟩ := h.parent_mem t ht p hp
    rw [(hold t ht).forkNode_eq, (hold p hmem).nodes_eq]
    exact ⟨hmem, hlt, (hold p hmem).children_subset hchild, hnode⟩
  fork_type t ht hp := by
    rw [hthreads] at ht
    rw [parent_eq_of_keeps (hold t ht)] at hp
    rw [(hold t ht).forkNode_eq]
    exact h.fork_type t ht hp
  apart := by
    rw [hthreads]
    exact h.apart.imp_of_mem fun ht hu hap => hap.of_keeps (hold _ ht) (hold _ hu)

/-- A step that adds a thread keeps the invariant if the thread is apart from the others. -/
theorem insert (h : S.Inv G) (hthreads : S'.threads = S.threads ++ [S.allocated])
    (halloc : S'.allocated = S.allocated + 1)
    (hold : ∀ t ∈ S.threads, (S.thread t).Keeps (S'.thread t))
    (hid : (S'.thread S.allocated).id = S.threads.length)
    (hmain : (S'.thread S.allocated).isMainThread = true ↔ S'.parent S.allocated = none)
    (hparent : ∀ p, S'.parent S.allocated = some p →
      p ∈ S.threads ∧ S.allocated ∈ (S'.thread p).children ∧
        (S'.thread S.allocated).forkNode ∈ (S'.thread p).nodes)
    (hfork : S'.parent S.allocated ≠ none →
      G.type (S'.thread S.allocated).forkNode = .fork)
    (hapart : ∀ t ∈ S.threads, S'.Apart G t S.allocated) : S'.Inv G := by
  have hmem : ∀ {t}, t ∈ S'.threads ↔ t ∈ S.threads ∨ t = S.allocated := by
    simp [hthreads]
  -- Each clause is the old one for the old threads and an assumption for the new one.
  refine ⟨fun t ht => ?_, ?_, fun t ht => ?_, fun t ht p hp => ?_, fun t ht hp => ?_, ?_⟩
  · rw [halloc]
    rcases hmem.mp ht with ht | rfl
    · exact Nat.lt_succ_of_lt (h.lt_allocated t ht)
    · exact Nat.lt_succ_self _
  · rw [hthreads, List.map_append, List.length_append, List.map_singleton, List.length_singleton,
      List.range_succ, hid, ← h.ids, List.map_congr_left fun t ht => (hold t ht).id_eq]
  · rcases hmem.mp ht with ht | rfl
    · rw [(hold t ht).isMain_eq, parent_eq_of_keeps (hold t ht)]
      exact h.isMain_iff t ht
    · exact hmain
  · rcases hmem.mp ht with ht | rfl
    · rw [parent_eq_of_keeps (hold t ht)] at hp
      obtain ⟨hpm, hlt, hchild, hnode⟩ := h.parent_mem t ht p hp
      rw [(hold t ht).forkNode_eq, (hold p hpm).nodes_eq]
      exact ⟨hmem.mpr (Or.inl hpm), hlt, (hold p hpm).children_subset hchild, hnode⟩
    · obtain ⟨hpm, hchild, hnode⟩ := hparent p hp
      exact ⟨hmem.mpr (Or.inl hpm), h.lt_allocated p hpm, hchild, hnode⟩
  · rcases hmem.mp ht with ht | rfl
    · rw [parent_eq_of_keeps (hold t ht)] at hp
      rw [(hold t ht).forkNode_eq]
      exact h.fork_type t ht hp
    · exact hfork hp
  · rw [hthreads, List.pairwise_append]
    refine ⟨?_, List.pairwise_singleton _ _, fun t ht u hu => ?_⟩
    · exact h.apart.imp_of_mem fun ht hu hap => hap.of_keeps (hold _ ht) (hold _ hu)
    · rw [List.mem_singleton.mp hu]
      exact hapart t ht

/-- The ancestors of a thread are threads that were allocated before it. -/
theorem mem_and_lt_of_below (h : S.Inv G) (ht : t ∈ S.threads) (hb : Below S.parent t u) :
    u ∈ S.threads ∧ u < t := by
  -- Every parent was allocated before its child.
  induction hb with
  | single hp =>
      obtain ⟨hmem, hlt, -⟩ := h.parent_mem t ht _ hp
      exact ⟨hmem, hlt⟩
  | tail _ hp ih =>
      obtain ⟨hmem, hlt, -⟩ := h.parent_mem _ ih.1 _ hp
      exact ⟨hmem, hlt.trans ih.2⟩

/-- A forked thread differs from every other thread. -/
theorem differs (h : S.Inv G) (ht : t ∈ S.threads) (hu : u ∈ S.threads) (hne : t ≠ u)
    (hforked : S.parent u ≠ none) :
    (S.thread t).forkNode ≠ (S.thread u).forkNode ∧ S.entryNode G t ≠ S.entryNode G u ∧
      (S.parent t ≠ none → (S.forkLoc G t).fileName = (S.forkLoc G u).fileName →
        (S.forkLoc G t).lineNumber ≠ (S.forkLoc G u).lineNumber) := by
  have : Std.Symm fun t u => S.Apart G t u ∨ S.Apart G u t := ⟨fun _ _ => Or.symm⟩
  have hapart : S.threads.Pairwise fun t u => S.Apart G t u ∨ S.Apart G u t :=
    h.apart.imp Or.inl
  rcases hapart.forall ht hu hne with hap | hap
  · exact ⟨hap.forkNode_ne hforked, hap.entryNode_ne hforked,
      fun hp => hap.forkLoc_ne hp hforked⟩
  · -- The entry threads come first, so the later one was forked as well.
    have hp : S.parent t ≠ none := mt hap.entries_first hforked
    exact ⟨(hap.forkNode_ne hp).symm, (hap.entryNode_ne hp).symm,
      fun _ hfile hline => hap.forkLoc_ne hforked hp hfile.symm hline.symm⟩

/-- Every thread but the main one has a parent. -/
theorem forked (h : S.Inv G) (ht : t ∈ S.threads) (hmain : (S.thread t).isMainThread = false) :
    S.parent t ≠ none := by
  intro hnone
  rw [(h.isMain_iff t ht).mpr hnone] at hmain
  exact Bool.noConfusion hmain

/-- No two threads have the same id. -/
theorem nodup_ids (h : S.Inv G) : (S.threads.map fun t => (S.thread t).id).Nodup := by
  rw [h.ids]
  exact List.nodup_range

/-- A state with the invariant is a well-formed tree. -/
theorem wellFormed (h : S.Inv G) : S.WellFormed G where
  id_inj t ht u hu hid := List.inj_on_of_nodup_map h.nodup_ids ht hu hid
  parent_mem t ht hmain := by
    obtain ⟨p, hp⟩ := Option.ne_none_iff_exists'.mp (h.forked ht hmain)
    exact ⟨p, (h.parent_mem t ht p hp).1, hp⟩
  acyclic t ht hb := (h.mem_and_lt_of_below ht hb).2.false
  forkNode_inj t ht u hu _ hmain heq := by
    by_contra hne
    exact (h.differs ht hu hne (h.forked hu hmain)).1 heq
  forkLoc_inj t ht u hu hmain hmain' hfile hline := by
    by_contra hne
    exact (h.differs ht hu hne (h.forked hu hmain')).2.2 (h.forked ht hmain) hfile hline
  entryNode_inj t ht u hu hmain heq := by
    by_contra hne
    exact (h.differs ht hu hne (h.forked hu hmain)).2.1 heq

end Inv

/-- A set of threads that has the parents of its threads is well-formed if the whole set is. -/
theorem WellFormed.of_subset (h : S.WellFormed G) (hthread : S'.thread = S.thread)
    (hsub : S'.threads ⊆ S.threads)
    (hparent : ∀ t ∈ S'.threads, ∀ p ∈ S.threads, S.parent t = some p → p ∈ S'.threads) :
    S'.WellFormed G := by
  have hpar : S'.parent = S.parent := by
    funext t
    rw [parent, parent, hthread]
  have hloc : S'.forkLoc G = S.forkLoc G := by
    funext t
    rw [forkLoc, forkLoc, hthread]
  have hnode : S'.entryNode G = S.entryNode G := by
    funext t
    rw [entryNode, entryNode, hthread]
  -- Every clause but the one about parents is about single threads or pairs.
  refine ⟨fun t ht u hu => ?_, fun t ht hmain => ?_, fun t ht => ?_, fun t ht u hu => ?_,
    fun t ht u hu => ?_, fun t ht u hu => ?_⟩
  · rw [hthread]
    exact h.id_inj t (hsub ht) u (hsub hu)
  · rw [hthread] at hmain
    obtain ⟨p, hp, hpt⟩ := h.parent_mem t (hsub ht) hmain
    exact ⟨p, hparent t ht p hp hpt, hpar ▸ hpt⟩
  · rw [hpar]
    exact h.acyclic t (hsub ht)
  · rw [hthread]
    exact h.forkNode_inj t (hsub ht) u (hsub hu)
  · rw [hthread, hloc]
    exact h.forkLoc_inj t (hsub ht) u (hsub hu)
  · rw [hthread, hnode]
    exact h.entryNode_inj t (hsub ht) u (hsub hu)

end TreeState

/-! ### The steps keep the invariant -/

namespace ForkGraph

open TreeState

/-- The tree after a fork got a thread with the main function `f`. -/
def afterFork (G : ForkGraph) (S : TreeState) (forkNode : NodeId) (p : ThreadId) (f : FuncId) :
    TreeState :=
  ((S.allocate (G.startThread S forkNode (some p) f)).addChild p S.allocated).addThread S.allocated

variable {G : ForkGraph} {S S' : TreeState} {queue : List (NodeId × ThreadId)}
  {t v p : ThreadId} {forkNode : NodeId} {f : FuncId}

/-- What `createThread` can do for a fork: it adds a thread for a new fork node, a new location and
a new start routine, or it adds none. -/
theorem createThread_cases (G : ForkGraph) (S : TreeState) (round : ℕ) (forkNode : NodeId)
    (p : ThreadId) :
    (∃ S', G.createThread S round forkNode (some p) = (none, S') ∧
      (S' = S ∨ S' = S.allocate (newThread S forkNode (some p)))) ∨
    ∃ f, G.createThread S round forkNode (some p) =
        (some S.allocated, G.afterFork S forkNode p f) ∧
      S.hasForkNode forkNode = false ∧ G.hasForkLoc S forkNode = false ∧
      G.hasMainFunction S (G.cpgNode (G.getFuncNode f)) = false := by
  unfold createThread
  cases hnode : S.hasForkNode forkNode with
  | true => exact Or.inl ⟨S, rfl, Or.inl rfl⟩
  | false =>
      cases hloc : G.hasForkLoc S forkNode with
      | true => exact Or.inl ⟨S, rfl, Or.inl rfl⟩
      | false =>
          cases hentry : G.findThreadEntryInCPG round forkNode with
          | none => exact Or.inl ⟨_, rfl, Or.inr rfl⟩
          | some c =>
              cases hmain : G.hasMainFunction S c with
              | true => exact Or.inl ⟨_, by simp [hmain], Or.inr rfl⟩
              | false =>
                  refine Or.inr ⟨G.createFunction (G.createCCPGNode c),
                    by simp [hmain, afterFork], rfl, rfl, ?_⟩
                  -- The test is about the node of the routine, which the function leads back to.
                  rw [G.cpgNode_startRoutine round forkNode c hentry]
                  exact hmain

/-- The first check passes exactly if no thread was forked at this node. -/
theorem hasForkNode_eq_false : S.hasForkNode forkNode = false ↔
    ∀ t ∈ S.threads, (S.thread t).forkNode ≠ forkNode := by
  simp [hasForkNode]

/-- The second check passes exactly if no thread was forked at this line. -/
theorem hasForkLoc_eq_false : G.hasForkLoc S forkNode = false ↔
    ∀ t ∈ S.threads, G.type (S.thread t).forkNode = .fork →
      (G.nodeLoc forkNode).fileName = (S.forkLoc G t).fileName →
      (G.nodeLoc forkNode).lineNumber ≠ (S.forkLoc G t).lineNumber := by
  simp [hasForkLoc, forkLoc]

/-- The third check passes exactly if no thread runs this function. -/
theorem hasMainFunction_eq_false {c : CPGNodePtr} : G.hasMainFunction S c = false ↔
    ∀ t ∈ S.threads, ∀ f, (S.thread t).threadMainFunction = some f →
      G.cpgNode (G.getFuncNode f) ≠ c := by
  rw [hasMainFunction, List.any_eq_false]
  refine forall₂_congr fun t _ => ?_
  cases (S.thread t).threadMainFunction <;> simp

/-- The three tests of `createThread` tell the thread of a fork from the threads that are there. -/
theorem apart_startThread (ht : t ∈ S.threads)
    (htype : S.parent t ≠ none → G.type (S.thread t).forkNode = .fork)
    (hnode : S.hasForkNode forkNode = false) (hloc : G.hasForkLoc S forkNode = false)
    (hmain : G.hasMainFunction S (G.cpgNode (G.getFuncNode f)) = false)
    (hold : (S.thread t).Keeps (S'.thread t))
    (hnew : S'.thread v = G.startThread S forkNode (some p) f) : S'.Apart G t v := by
  have hparent : S'.parent v = some p := by rw [TreeState.parent, hnew]; rfl
  have hforkNode : (S'.thread v).forkNode = forkNode := by rw [hnew]; rfl
  -- The entry threads come first: this one has a parent. The rest are the three tests.
  refine ⟨fun h => ?_, fun _ => ?_, fun hp _ hfile => ?_, fun _ heq => ?_⟩
  · rw [hparent] at h
    cases h
  · rw [hold.forkNode_eq, hforkNode]
    exact hasForkNode_eq_false.mp hnode t ht
  · rw [parent_eq_of_keeps hold] at hp
    rw [forkLoc, forkLoc, hold.forkNode_eq, hforkNode] at hfile ⊢
    exact (hasForkLoc_eq_false.mp hloc t ht (htype hp) hfile.symm).symm
  · rw [entryNode, entryNode, hold.main_eq, hnew] at heq
    obtain ⟨g, hg, hgf⟩ := Option.map_eq_some_iff.mp heq
    exact hasMainFunction_eq_false.mp hmain t ht g hg (by rw [hgf])

/-- The new object is the one that was allocated for the fork. -/
theorem thread_afterFork_self (hp : p ≠ S.allocated) :
    (G.afterFork S forkNode p f).thread S.allocated = G.startThread S forkNode (some p) f := by
  rw [afterFork, thread_addThread, thread_addChild_of_ne hp.symm, thread_allocate_self]

/-- The threads that are there are kept when a fork gets a thread. -/
theorem keeps_afterFork (h : S.Inv G) (ht : t ∈ S.threads) :
    (S.thread t).Keeps ((G.afterFork S forkNode p f).thread t) := by
  have hne : t ≠ S.allocated := (h.lt_allocated t ht).ne
  rw [afterFork, thread_addThread]
  by_cases htp : t = p
  · -- The parent gets a child.
    subst htp
    rw [addChild, thread_modify_self, thread_allocate_of_ne hne]
    exact (S.thread t).keeps_addChild S.allocated
  · rw [thread_addChild_of_ne htp, thread_allocate_of_ne hne]
    exact ThreadObject.Keeps.refl (S.thread t)

/-- A fork that gets a thread keeps the invariant. -/
theorem inv_afterFork (h : S.Inv G) (hp : p ∈ S.threads) (hfork : G.type forkNode = .fork)
    (hmem : forkNode ∈ (S.thread p).nodes) (hnode : S.hasForkNode forkNode = false)
    (hloc : G.hasForkLoc S forkNode = false)
    (hmain : G.hasMainFunction S (G.cpgNode (G.getFuncNode f)) = false) :
    (G.afterFork S forkNode p f).Inv G := by
  have hnew : (G.afterFork S forkNode p f).thread S.allocated =
      G.startThread S forkNode (some p) f := thread_afterFork_self (h.lt_allocated p hp).ne
  refine h.insert rfl rfl (fun t ht => keeps_afterFork h ht) ?_ ?_ (fun q hq => ?_) (fun _ => ?_)
    fun t ht =>
      apart_startThread ht (h.fork_type t ht) hnode hloc hmain (keeps_afterFork h ht) hnew
  · rw [hnew]
    rfl
  · -- A thread with a parent is no entry thread.
    rw [TreeState.parent, hnew]
    simp [startThread, newThread]
  · rw [TreeState.parent, hnew] at hq
    obtain rfl : p = q := Option.some.inj hq
    refine ⟨hp, mem_children_addChild, ?_⟩
    rw [hnew, (keeps_afterFork h hp).nodes_eq]
    exact hmem
  · rw [hnew]
    exact hfork

/-- What a turn of the loop over the entry functions gives. -/
theorem createEntry_eq (s : TreeState × List (NodeId × ThreadId)) (entry : FuncId) :
    ∃ o : ThreadObject, o.id = s.1.threads.length ∧ o.parent = none ∧ o.isMainThread = true ∧
      (G.createEntry s entry).1.threads = s.1.threads ++ [s.1.allocated] ∧
      (G.createEntry s entry).1.allocated = s.1.allocated + 1 ∧
      (G.createEntry s entry).1.thread = Function.update s.1.thread s.1.allocated o ∧
      ∀ x ∈ (G.createEntry s entry).2, x ∈ s.2 ∨
        x.2 = s.1.allocated ∧ G.type x.1 = .fork ∧ x.1 ∈ o.nodes := by
  refine ⟨G.markEntry entry (G.startThread s.1 (G.getFuncNode entry) none
    (G.createFunction (G.getFuncNode entry))), rfl, rfl, rfl, rfl, rfl, ?_, fun x hx => ?_⟩
  · simp [createEntry, createThread, TreeState.modify, allocate, addThread]
  · refine (List.mem_append.mp hx).imp_right fun hx => ?_
    obtain ⟨ht, htype, hnode⟩ := mem_forksOf hx
    rw [thread_addThread, thread_allocate_self] at hnode
    exact ⟨ht, htype, hnode⟩

/-- The loop over the entry functions keeps the invariant, and adds entry threads only. -/
theorem inv_entries (entries : List FuncId) {s : TreeState × List (NodeId × ThreadId)}
    (h : s.1.Inv G) (hentry : ∀ t ∈ s.1.threads, s.1.parent t = none) (hq : s.1.Queued G s.2) :
    (entries.foldl G.createEntry s).1.Inv G ∧
      (entries.foldl G.createEntry s).1.Queued G (entries.foldl G.createEntry s).2 := by
  induction entries generalizing s with
  | nil => exact ⟨h, hq⟩
  | cons entry entries ih =>
      obtain ⟨o, hid, hparent, hmain, hthreads, halloc, hthread, hqueue⟩ := createEntry_eq s entry
      have hnew : (G.createEntry s entry).1.thread s.1.allocated = o := by
        rw [hthread, Function.update_self]
      have hpnew : (G.createEntry s entry).1.parent s.1.allocated = none := by
        rw [TreeState.parent, hnew, hparent]
      have hold : ∀ t ∈ s.1.threads,
          (G.createEntry s entry).1.thread t = s.1.thread t := fun t ht => by
        rw [hthread, Function.update_of_ne (h.lt_allocated t ht).ne]
      have hkeeps : ∀ t ∈ s.1.threads, (s.1.thread t).Keeps
          ((G.createEntry s entry).1.thread t) :=
        fun t ht => (hold t ht) ▸ ThreadObject.Keeps.refl (s.1.thread t)
      have hpold : ∀ t ∈ s.1.threads, (G.createEntry s entry).1.parent t = none :=
        fun t ht => by rw [TreeState.parent, hold t ht]; exact hentry t ht
      have hmem : ∀ t, t ∈ (G.createEntry s entry).1.threads ↔
          t ∈ s.1.threads ∨ t = s.1.allocated := by
        simp [hthreads]
      refine ih ?_ (fun t ht => ?_) fun x hx => ?_
      · -- No thread has a parent yet, so the new one has only to come behind entry threads.
        refine h.insert hthreads halloc hkeeps ?_ ?_ (fun p hp => ?_) (absurd hpnew) fun t ht =>
          ⟨fun _ => hpold t ht, absurd hpnew, fun _ => absurd hpnew, absurd hpnew⟩
        · rw [hnew, hid]
        · rw [hnew, hmain, hpnew]
          simp
        · rw [hpnew] at hp
          cases hp
      · rcases (hmem t).mp ht with ht | rfl
        · exact hpold t ht
        · exact hpnew
      · rcases hqueue x hx with hx | ⟨hx, htype, hnode⟩
        · exact hq.of_keeps (hthreads ▸ List.subset_append_left _ _) hkeeps x hx
        · exact ⟨(hmem _).mpr (Or.inr hx), htype, by rw [hx, hnew]; exact hnode⟩

/-- The loop over the forks keeps the invariant. -/
theorem inv_loop (left : ℕ) (h : S.Inv G) (hq : S.Queued G queue) :
    (G.loop left S queue).Inv G := by
  induction left generalizing S queue with
  | zero => exact h
  | succ left ih =>
      match queue, hq with
      | [], _ => exact h
      | (forkNode, p) :: queue, hq =>
          -- What is queued is a fork of a thread of the tree.
          obtain ⟨hp, hfork, hmem⟩ := hq _ List.mem_cons_self
          have hrest : S.Queued G queue := fun x hx => hq x (List.mem_cons_of_mem _ hx)
          unfold loop
          rcases createThread_cases G S (99 - left) forkNode p with
            ⟨S', heq, rfl | rfl⟩ | ⟨f, heq, hnode, hloc, hmain⟩
          · -- The fork node or its location has a thread.
            rw [heq]
            exact ih h hrest
          · -- A thread was allocated and given up.
            rw [heq]
            have hkeeps : ∀ t ∈ S.threads, (S.thread t).Keeps
                ((S.allocate (newThread S forkNode (some p))).thread t) := fun t ht => by
              rw [thread_allocate_of_ne (h.lt_allocated t ht).ne]
              exact ThreadObject.Keeps.refl (S.thread t)
            exact ih (h.of_keeps rfl (Nat.le_succ _) hkeeps)
              (hrest.of_keeps (List.Subset.refl _) hkeeps)
          · -- The fork has a thread now, whose forks go to the end of the queue.
            rw [heq]
            refine ih (inv_afterFork h hp hfork hmem hnode hloc hmain) fun x hx => ?_
            rcases List.mem_append.mp hx with hx | hx
            · exact hrest.of_keeps (List.subset_append_left _ _) (fun t ht => keeps_afterFork h ht)
                x hx
            · obtain ⟨ht, htype, hxmem⟩ := mem_forksOf hx
              exact ⟨List.mem_append_right _ (List.mem_singleton.mpr ht), htype, ht ▸ hxmem⟩

/-- Erasing the entry threads without children leaves a well-formed tree. -/
theorem wellFormed_eraseWrongThreads (h : S.Inv G) : (G.eraseWrongThreads S).WellFormed G := by
  unfold eraseWrongThreads
  split_ifs
  · exact h.wellFormed
  · refine h.wellFormed.of_subset rfl (List.filter_subset_self _) fun t ht p hp hpt => ?_
    -- The parent has the thread as a child.
    obtain ⟨-, -, hchild, -⟩ := h.parent_mem t (List.mem_filter.mp ht).1 p hpt
    refine List.mem_filter.mpr ⟨hp, ?_⟩
    rw [Bool.not_eq_true', Bool.and_eq_false_iff]
    exact Or.inr (by simp [List.ne_nil_of_mem hchild])

/-- The invariant holds before the entry threads without children are erased. -/
theorem inv_build (G : ForkGraph) : (G.loop 100 (G.entries.foldl G.createEntry (empty, [])).1
    (G.entries.foldl G.createEntry (empty, [])).2).Inv G := by
  have hstart : ((empty, []) : TreeState × List (NodeId × ThreadId)).1.Inv G := inv_empty
  obtain ⟨h, hq⟩ := inv_entries G.entries hstart (fun _ ht => absurd ht List.not_mem_nil)
    fun _ hx => absurd hx List.not_mem_nil
  exact inv_loop 100 h hq

/-- A thread is forked at a node of its parent of type `FORK`. -/
theorem forkNode_mem_build (ht : t ∈ G.build.threads) (hp : G.build.parent t = some p) :
    G.type (G.build.thread t).forkNode = .fork ∧
      (G.build.thread t).forkNode ∈ (G.build.thread p).nodes := by
  have h := inv_build G
  have herase : ∀ S : TreeState, (G.eraseWrongThreads S).thread = S.thread ∧
      (G.eraseWrongThreads S).threads ⊆ S.threads := fun S => by
    unfold eraseWrongThreads
    split_ifs
    · exact ⟨rfl, List.Subset.refl _⟩
    · exact ⟨rfl, List.filter_subset_self _⟩
  -- Erasing threads changes none of those that stay.
  obtain ⟨hthread, hsub⟩ := herase _
  have hmem := hsub ht
  rw [TreeState.parent, build, hthread] at hp
  rw [build, hthread]
  exact ⟨h.fork_type t hmem (by rw [TreeState.parent, hp]; exact Option.some_ne_none p),
    (h.parent_mem t hmem p hp).2.2.2⟩

/-- `build` leaves a well-formed tree, for every graph, entry functions, fork nodes and start
routines. -/
theorem build_wellFormed (G : ForkGraph) : (G.build).WellFormed G :=
  wellFormed_eraseWrongThreads (inv_build G)

/-! ### A program with a thread -/

/-- `main` forks `worker` at node 1. -/
def mainWorker : ForkGraph where
  nodes := [0, 1, 10]
  type n := if n = 1 then .fork else .dummy
  isCallSite n := n = 1
  edges := [⟨0, 1, .order⟩]
  mem_nodes := by decide
  functions := {0, 1, 2}
  getNodes f := if f = 0 then [0, 1] else if f = 1 then [10] else []
  getFuncNode f := 10 * f
  getFunction n := if n < 10 then some 0 else if n < 20 then some 1 else some 2
  getFunction_funcNode := FunctionGraph.tens_getFunction
  getFunction_of_mem := by decide
  call_dst := by decide
  call_src := by decide
  call_unique := by decide
  entries := [0]
  nodeLoc n := ⟨"main.c", n⟩
  cpgNode n := n.toNat
  createCCPGNode c := c
  createFunction n := if n = 10 then 1 else 0
  findThreadEntryInCPG _ n := if n = 1 then some 10 else none
  entryName f := if f = 1 then "worker" else "main"
  llvmName _ := none
  manualEntries := false
  cpgNode_startRoutine _ _ _ h := by
    obtain ⟨-, h⟩ := Option.ite_none_right_eq_some.mp h
    obtain rfl := Option.some.inj h
    rfl

/-- The thread of `main` has the node at which the worker is forked. -/
example : (1 : NodeId) ∈ (mainWorker.startThread TreeState.empty 0 none 0).nodes :=
  mem_nodes_startThread.mpr ⟨0, .refl, by decide⟩

end ForkGraph

end Lace
