import Lace.CCPG.Functions
import Lace.Library.Matching
import Lace.Library.Reorder
import Lace.ThreadTree.Basic

/-!
# Matching joins with threads

`handleJoins` gives each forked thread a join node. Every join node goes to the best of the threads
whose handle it aliases, unless that one has a join node already; a thread without a join node then
takes the first one that aliases its handle. The sets are hash sets, and the sort may leave equal
scores in any order. The threads of entry functions are passed over: what they hold as their join
node is what `new Thread()` left in it.

## Main definitions

* `JoinInput`: what `handleJoins` reads;
* `JoinInput.Enumeration`: an order of the two sets;
* `JoinInput.handleJoins`: the tree with its join nodes;
* `JoinInput.Matched`: the join nodes are right, complete, and do not depend on the order.

## Main results

* `JoinInput.joinNode_handleJoins`: the join node of a forked thread;
* `JoinInput.matched_iff`: when the threads are matched.
-/

namespace Lace

open Library

/-- `removeAmpersand`: the name of a thread variable, whether it is passed by address or not. -/
def removeAmpersand (str : List Char) : List Char := str.filter (· ≠ '&')

/-- What `handleJoins` reads. -/
structure JoinInput where
  /-- The tree; a thread holds as its join node what it was made with, which is no value. -/
  tree : ThreadCreationTree
  /-- `threads` is a set. -/
  threads_nodup : tree.threads.Nodup
  /-- `CCPGNode::getFunction`. -/
  getFunction : NodeId → FuncId
  /-- `getCPGNode()->getArgument(1)->getCode()`: the handle of a fork or join. -/
  handleCode : NodeId → List Char
  /-- `AliasChecker::isThreadAlias`. -/
  isThreadAlias : NodeId → NodeId → Bool
  /-- Aliasing is symmetric. -/
  isThreadAlias_comm : ∀ m n, isThreadAlias m n = isThreadAlias n m

namespace JoinInput

variable (P : JoinInput)

/-- The join nodes. -/
def joinNodes : List NodeId := P.tree.ccpg.getNodesByType .join

/-- `Thread::getForkNode`: where a thread is forked. -/
def forkNode (t : ThreadId) : NodeId := (P.tree.thread t).forkNode

/-- The fork node of the thread is a `FORK`; that of an entry thread is its function. -/
def IsForked (t : ThreadId) : Prop := P.tree.ccpg.type (P.forkNode t) = .fork

instance (t : ThreadId) : Decidable (P.IsForked t) := inferInstanceAs (Decidable (_ = _))

/-- The join node aliases the handle of the thread. -/
def Aliases (t : ThreadId) (j : NodeId) : Prop := P.isThreadAlias (P.forkNode t) j = true

instance (t : ThreadId) (j : NodeId) : Decidable (P.Aliases t j) :=
  inferInstanceAs (Decidable (_ = _))

/-- An order in which the sets are iterated. -/
structure Enumeration where
  /-- `threads`. -/
  threads : List ThreadId
  /-- `joinNodes`. -/
  joinNodes : List NodeId
  /-- The threads are those of the tree. -/
  threads_perm : threads.Perm P.tree.threads
  /-- The join nodes are those of the graph. -/
  joinNodes_perm : joinNodes.Perm P.joinNodes

/-- How well a join node and a thread match. -/
def score (j : NodeId) (t : ThreadId) : ℕ :=
  (if P.getFunction j = P.getFunction (P.forkNode t) then 2 else 0) +
    if removeAmpersand (P.handleCode j) = removeAmpersand (P.handleCode (P.forkNode t)) then 1
    else 0

/-- The candidates for a join node, with their scores. -/
def candidates (threads : List ThreadId) (j : NodeId) : List (ThreadId × ℕ) :=
  (threads.filter fun t => P.IsForked t ∧ P.Aliases t j).map fun t => (t, P.score j t)

variable {P} in
/-- The map after the join nodes went to their best candidates. -/
def threadToJoinMap (sort : ScoreSort ThreadId) (o : P.Enumeration) : ThreadId → Option NodeId :=
  serve (fun j => sort.best (P.candidates o.threads j)) o.joinNodes

variable {P} in
/-- The supplementary step for a thread that has no join node. -/
def supplement (o : P.Enumeration) (t : ThreadId) : Option NodeId → Option NodeId
  | some j => some j
  | none => o.joinNodes.find? fun j => P.isThreadAlias j (P.forkNode t)

/-- `ThreadCreationTree::handleJoins`: every forked thread gets the join node that fits best. -/
def handleJoins (sort : ScoreSort ThreadId) (o : P.Enumeration) : ThreadCreationTree :=
  { P.tree with
    thread := fun t =>
      if t ∈ o.threads ∧ P.IsForked t then
        { P.tree.thread t with joinNode := supplement o t (threadToJoinMap sort o t) }
      else P.tree.thread t
    parent_lt := by
      intro t p h
      split_ifs at h <;> exact P.tree.parent_lt t p h
    forkNode_inj := by
      intro t u ht hu h
      split_ifs at ht hu h <;> exact P.tree.forkNode_inj t u ht hu h
    isKernelEntry_of_ne := by
      intro t u ht hu h
      split_ifs at ht hu ⊢ <;> exact P.tree.isKernelEntry_of_ne t u ht hu h }

/-- A thread has no join node or one that aliases its handle; a forked thread has one if there is
one; and no order of the sets makes a difference. -/
structure Matched : Prop where
  /-- A join node aliases the handle. -/
  sound : ∀ sort o, ∀ t ∈ P.tree.threads, ∀ j, ((P.handleJoins sort o).thread t).joinNode = some j →
    j ∈ P.joinNodes ∧ P.Aliases t j
  /-- A forked thread is not left without. -/
  total : ∀ sort o, ∀ t ∈ P.tree.threads, P.IsForked t → (∃ j ∈ P.joinNodes, P.Aliases t j) →
    ∃ j, ((P.handleJoins sort o).thread t).joinNode = some j
  /-- The order makes no difference. -/
  reordered : ∀ sort o o', ∀ t ∈ P.tree.threads,
    ((P.handleJoins sort o).thread t).joinNode = ((P.handleJoins sort o').thread t).joinNode

/-- A thread is among the best candidates for a join node. -/
def IsBestFor (j : NodeId) (t : ThreadId) : Prop := IsBest (P.candidates P.tree.threads j) t

/-- One join node at most aliases the handle; or the thread is the only best candidate for one, and
a best candidate for no other. -/
def Settled (t : ThreadId) : Prop :=
  (∀ j ∈ P.joinNodes, ∀ j' ∈ P.joinNodes, P.Aliases t j → P.Aliases t j' → j = j') ∨
    ∃ j ∈ P.joinNodes, (∀ u, P.IsBestFor j u ↔ u = t) ∧
      ∀ j' ∈ P.joinNodes, P.IsBestFor j' t → j' = j

/-- What the thread of an entry function was made with is no join node, or one that aliases. -/
def EntryHolds (t : ThreadId) : Prop :=
  ∀ j, (P.tree.thread t).joinNode = some j → j ∈ P.joinNodes ∧ P.Aliases t j

variable {P} {sort : ScoreSort ThreadId} {o o' : P.Enumeration} {t u : ThreadId} {j j' : NodeId}

/-! ### The candidates -/

theorem mem_candidates_iff {threads : List ThreadId} {k : ℕ} :
    (t, k) ∈ P.candidates threads j ↔
      t ∈ threads ∧ (P.IsForked t ∧ P.Aliases t j) ∧ P.score j t = k := by
  rw [candidates, List.mem_map]
  constructor
  · rintro ⟨t', ht', heq⟩
    obtain ⟨rfl, rfl⟩ := Prod.mk.inj heq
    obtain ⟨hmem, hcand⟩ := List.mem_filter.mp ht'
    exact ⟨hmem, of_decide_eq_true hcand, rfl⟩
  · rintro ⟨hmem, hcand, rfl⟩
    exact ⟨t, List.mem_filter.mpr ⟨hmem, decide_eq_true hcand⟩, rfl⟩

theorem map_fst_candidates (threads : List ThreadId) : (P.candidates threads j).map Prod.fst =
    threads.filter fun t => P.IsForked t ∧ P.Aliases t j := by
  rw [candidates, List.map_map]
  exact List.map_id _

theorem candidates_perm (o : P.Enumeration) :
    (P.candidates o.threads j).Perm (P.candidates P.tree.threads j) :=
  (o.threads_perm.filter _).map _

/-- Best candidates are forked threads whose handle the join node aliases. -/
theorem IsBestFor.candidate (h : P.IsBestFor j t) :
    t ∈ P.tree.threads ∧ P.IsForked t ∧ P.Aliases t j := by
  obtain ⟨⟨t', k⟩, hmem, rfl, -⟩ := h
  obtain ⟨ht, hcand, -⟩ := mem_candidates_iff.mp hmem
  exact ⟨ht, hcand⟩

/-- No candidate has a higher score. -/
theorem IsBestFor.score_le (h : P.IsBestFor j t) (hu : u ∈ P.tree.threads)
    (hcand : P.IsForked u ∧ P.Aliases u j) : P.score j u ≤ P.score j t := by
  obtain ⟨⟨t', k⟩, hmem, rfl, hmax⟩ := h
  obtain ⟨-, -, rfl⟩ := mem_candidates_iff.mp hmem
  exact hmax (u, P.score j u) (mem_candidates_iff.mpr ⟨hu, hcand, rfl⟩)

/-- The choice of a join node is one of its best candidates. -/
theorem isBestFor_of_best (h : sort.best (P.candidates o.threads j) = some t) :
    P.IsBestFor j t :=
  (IsBest.perm (candidates_perm o)).mp (ScoreSort.isBest_of_best h)

/-- The only best candidate is chosen. -/
theorem best_of_unique (h : ∀ u, P.IsBestFor j u ↔ u = t) :
    sort.best (P.candidates o.threads j) = some t :=
  ScoreSort.best_eq_of_unique ((IsBest.perm (candidates_perm o)).mpr ((h t).mpr rfl))
    fun u hu => (h u).mp ((IsBest.perm (candidates_perm o)).mp hu)

/-! ### The join nodes -/

/-- The join node of a forked thread: the first one that chooses it, or else the first one that
aliases its handle. -/
theorem joinNode_handleJoins (ht : t ∈ P.tree.threads) (hfork : P.IsForked t) :
    ((P.handleJoins sort o).thread t).joinNode =
      (o.joinNodes.find? fun j => sort.best (P.candidates o.threads j) = some t).or
        (o.joinNodes.find? fun j => P.Aliases t j) := by
  have hmem : t ∈ o.threads := o.threads_perm.mem_iff.mpr ht
  have hsupplement : ∀ found, supplement o t found =
      found.or (o.joinNodes.find? fun j => P.Aliases t j) := by
    intro found
    cases found with
    | some j => rfl
    | none =>
      rw [supplement, Option.none_or]
      simp only [Aliases, P.isThreadAlias_comm (P.forkNode t), Bool.decide_eq_true]
  rw [handleJoins]
  dsimp only
  rw [if_pos ⟨hmem, hfork⟩]
  dsimp only
  rw [hsupplement, threadToJoinMap, serve_eq_find?]

/-- The thread of an entry function holds what it was made with. -/
theorem joinNode_handleJoins_of_not (hfork : ¬P.IsForked t) :
    ((P.handleJoins sort o).thread t).joinNode = (P.tree.thread t).joinNode := by
  rw [handleJoins]
  dsimp only
  rw [if_neg fun h => hfork h.2]

/-- The join node of a forked thread aliases its handle. -/
theorem aliases_of_joinNode (ht : t ∈ P.tree.threads) (hfork : P.IsForked t)
    (h : ((P.handleJoins sort o).thread t).joinNode = some j) :
    j ∈ P.joinNodes ∧ P.Aliases t j := by
  rw [joinNode_handleJoins ht hfork, Option.or_eq_some_iff] at h
  rcases h with h | ⟨-, h⟩
  · have hbest := List.find?_some h
    exact ⟨o.joinNodes_perm.mem_iff.mp (List.mem_of_find?_eq_some h),
      (isBestFor_of_best (of_decide_eq_true hbest)).candidate.2.2⟩
  · have halias := List.find?_some h
    exact ⟨o.joinNodes_perm.mem_iff.mp (List.mem_of_find?_eq_some h), of_decide_eq_true halias⟩

/-- A forked thread has a join node if one aliases its handle. -/
theorem exists_joinNode (sort : ScoreSort ThreadId) (o : P.Enumeration) (ht : t ∈ P.tree.threads)
    (hfork : P.IsForked t) (hj : j ∈ P.joinNodes)
    (halias : P.Aliases t j) : ∃ j', ((P.handleJoins sort o).thread t).joinNode = some j' := by
  have hsome : (o.joinNodes.find? fun j => P.Aliases t j).isSome := by
    rw [List.find?_isSome]
    exact ⟨j, o.joinNodes_perm.mem_iff.mpr hj, decide_eq_true halias⟩
  rw [joinNode_handleJoins ht hfork, ← Option.isSome_iff_exists, Option.isSome_or, hsome,
    Bool.or_true]

/-! ### The order -/

/-- A settled thread gets the same join node in every order. -/
theorem Settled.reordered (h : P.Settled t) (ht : t ∈ P.tree.threads) (hfork : P.IsForked t) :
    ((P.handleJoins sort o).thread t).joinNode =
      ((P.handleJoins sort o').thread t).joinNode := by
  rcases h with honly | ⟨j, hj, hbest, hother⟩
  · -- All join nodes that the thread can get are the same.
    cases hjoin : ((P.handleJoins sort o).thread t).joinNode with
    | some j =>
      -- Both orders find a node, and there is only one to find.
      obtain ⟨hj, halias⟩ := aliases_of_joinNode ht hfork hjoin
      obtain ⟨j', hj'⟩ := exists_joinNode sort o' ht hfork hj halias
      obtain ⟨hmem', halias'⟩ := aliases_of_joinNode ht hfork hj'
      rw [hj', honly j hj j' hmem' halias halias']
    | none =>
      -- An order that finds none has none to find, nor has the other.
      cases hjoin' : ((P.handleJoins sort o').thread t).joinNode with
      | none => rfl
      | some j =>
        obtain ⟨hj, halias⟩ := aliases_of_joinNode ht hfork hjoin'
        obtain ⟨j', hj'⟩ := exists_joinNode sort o ht hfork hj halias
        rw [hjoin] at hj'
        cases hj'
  · -- One join node prefers the thread, and it is served first in every order.
    have hserved : ∀ o : P.Enumeration,
        (o.joinNodes.find? fun j => sort.best (P.candidates o.threads j) = some t) = some j := by
      intro o
      obtain ⟨j', hj'⟩ : ∃ j', (o.joinNodes.find? fun j =>
          sort.best (P.candidates o.threads j) = some t) = some j' := by
        rw [← Option.isSome_iff_exists, List.find?_isSome]
        exact ⟨j, o.joinNodes_perm.mem_iff.mpr hj, decide_eq_true (best_of_unique hbest)⟩
      have hfound := List.find?_some hj'
      rw [hj', hother j' (o.joinNodes_perm.mem_iff.mp (List.mem_of_find?_eq_some hj'))
        (isBestFor_of_best (of_decide_eq_true hfound))]
    rw [joinNode_handleJoins ht hfork, joinNode_handleJoins ht hfork, hserved o, hserved o',
      Option.some_or, Option.some_or]

variable (P) in
/-- The order that starts with a thread. -/
def threadFirst (ht : t ∈ P.tree.threads) {joinNodes : List NodeId}
    (hperm : joinNodes.Perm P.joinNodes) : P.Enumeration where
  threads := t :: P.tree.threads.erase t
  joinNodes := joinNodes
  threads_perm := (List.perm_cons_erase ht).symm
  joinNodes_perm := hperm

variable (P) in
/-- The order that ends with a thread. -/
def threadLast (ht : t ∈ P.tree.threads) {joinNodes : List NodeId}
    (hperm : joinNodes.Perm P.joinNodes) : P.Enumeration where
  threads := P.tree.threads.erase t ++ [t]
  joinNodes := joinNodes
  threads_perm := (List.perm_append_singleton t _).trans (List.perm_cons_erase ht).symm
  joinNodes_perm := hperm

/-- The stable sort puts no candidate before a best one that comes earlier. -/
theorem stableSort_best_ne_of_sublist (hsub : [u, t].Sublist o.threads) (hu : P.IsBestFor j u)
    (ht : P.IsForked t ∧ P.Aliases t j) :
    (stableSort ThreadId).best (P.candidates o.threads j) ≠ some t := by
  have hnodup : ((P.candidates o.threads j).map Prod.fst).Nodup := by
    rw [map_fst_candidates]
    exact (o.threads_perm.nodup_iff.mpr P.threads_nodup).filter _
  have hmem : t ∈ P.tree.threads := o.threads_perm.mem_iff.mp (hsub.subset (by simp))
  have hcands : [(u, P.score j u), (t, P.score j t)].Sublist (P.candidates o.threads j) := by
    have hfilter : [u, t].filter (fun t => P.IsForked t ∧ P.Aliases t j) = [u, t] := by
      rw [List.filter_eq_self]
      intro v hv
      rcases List.mem_pair.mp hv with rfl | rfl
      · exact decide_eq_true hu.candidate.2
      · exact decide_eq_true ht
    have hmap := (hsub.filter fun t => P.IsForked t ∧ P.Aliases t j).map fun t => (t, P.score j t)
    rwa [hfilter] at hmap
  exact stableSort_best_ne hnodup hcands (hu.score_le hmem ht)

/-- A best candidate that comes first is chosen. -/
theorem best_threadFirst (ht : t ∈ P.tree.threads) {joinNodes : List NodeId}
    (hperm : joinNodes.Perm P.joinNodes) (hbest : P.IsBestFor j t) :
    (stableSort ThreadId).best (P.candidates (P.threadFirst ht hperm).threads j) = some t := by
  have hne : P.candidates (P.threadFirst ht hperm).threads j ≠ [] := by
    obtain ⟨x, hx, -⟩ := (IsBest.perm (candidates_perm (P.threadFirst ht hperm))).mpr hbest
    exact List.ne_nil_of_mem hx
  obtain ⟨u, hu⟩ := (stableSort ThreadId).exists_best hne
  rw [hu]
  by_contra hut
  have hut : u ≠ t := fun h => hut (congrArg some h)
  have hcand := (isBestFor_of_best hu).candidate
  have hsub : [t, u].Sublist (P.threadFirst ht hperm).threads :=
    (List.singleton_sublist.mpr ((List.mem_erase_of_ne hut).mpr hcand.1)).cons_cons t
  exact stableSort_best_ne_of_sublist hsub hbest hcand.2 hu

/-- A candidate that comes last is chosen only if it is the only best one. -/
theorem best_threadLast_ne (ht : t ∈ P.tree.threads) {joinNodes : List NodeId}
    (hperm : joinNodes.Perm P.joinNodes) (hbest : ¬∀ u, P.IsBestFor j u ↔ u = t) :
    (stableSort ThreadId).best (P.candidates (P.threadLast ht hperm).threads j) ≠ some t := by
  intro h
  have ht' := isBestFor_of_best h
  obtain ⟨u, hu, hut⟩ : ∃ u, P.IsBestFor j u ∧ u ≠ t := by
    by_contra hnot
    exact hbest fun u => ⟨fun hu => by_contra fun hut => hnot ⟨u, hu, hut⟩, fun heq => heq ▸ ht'⟩
  have hsub : [u, t].Sublist (P.threadLast ht hperm).threads :=
    (List.singleton_sublist.mpr ((List.mem_erase_of_ne hut).mpr hu.candidate.1)).append
      (List.Sublist.refl [t])
  exact stableSort_best_ne_of_sublist hsub hu ht'.candidate.2 h

/-- If the order makes no difference to a thread, it is a best candidate for one join node at
most, ... -/
theorem Matched.isBestFor_unique (h : P.Matched) (hj : j ∈ P.joinNodes) (hj' : j' ∈ P.joinNodes)
    (hbest : P.IsBestFor j t) (hbest' : P.IsBestFor j' t) : j = j' := by
  obtain ⟨ht, hfork, -⟩ := hbest.candidate
  have hchosen : ∀ i ∈ P.joinNodes, P.IsBestFor i t → ∃ o,
      ((P.handleJoins (stableSort ThreadId) o).thread t).joinNode = some i := by
    intro i hi hi'
    obtain ⟨l, hperm, hl⟩ := exists_perm_find?_eq
      (p := fun i => (stableSort ThreadId).best
        (P.candidates (P.threadFirst ht (List.Perm.refl _)).threads i) = some t)
      hi (decide_eq_true (best_threadFirst ht (List.Perm.refl _) hi'))
    refine ⟨P.threadFirst ht hperm, ?_⟩
    rw [joinNode_handleJoins ht hfork]
    exact Option.or_eq_some_iff.mpr (Or.inl hl)
  obtain ⟨o, ho⟩ := hchosen j hj hbest
  obtain ⟨o', ho'⟩ := hchosen j' hj' hbest'
  rw [h.reordered (stableSort ThreadId) o o' t ht, ho'] at ho
  exact (Option.some.inj ho).symm

/-- ... and if it is the only best candidate for none, one join node at most aliases its handle. -/
theorem Matched.aliases_unique (h : P.Matched) (ht : t ∈ P.tree.threads) (hfork : P.IsForked t)
    (hnone : ∀ j ∈ P.joinNodes, ¬∀ u, P.IsBestFor j u ↔ u = t) (hj : j ∈ P.joinNodes)
    (hj' : j' ∈ P.joinNodes) (halias : P.Aliases t j) (halias' : P.Aliases t j') : j = j' := by
  have hsupplied : ∀ i ∈ P.joinNodes, P.Aliases t i → ∃ o,
      ((P.handleJoins (stableSort ThreadId) o).thread t).joinNode = some i := by
    intro i hi hi'
    obtain ⟨l, hperm, hl⟩ := exists_perm_find?_eq (p := fun i => P.Aliases t i) hi
      (decide_eq_true hi')
    refine ⟨P.threadLast ht hperm, ?_⟩
    rw [joinNode_handleJoins ht hfork]
    refine Option.or_eq_some_iff.mpr (Or.inr ⟨List.find?_eq_none.mpr fun k hk hchosen => ?_, hl⟩)
    exact best_threadLast_ne ht hperm (hnone k (hperm.mem_iff.mp hk)) (of_decide_eq_true hchosen)
  obtain ⟨o, ho⟩ := hsupplied j hj halias
  obtain ⟨o', ho'⟩ := hsupplied j' hj' halias'
  rw [h.reordered (stableSort ThreadId) o o' t ht, ho'] at ho
  exact (Option.some.inj ho).symm

/-- So it is settled. -/
theorem Matched.settled (h : P.Matched) (ht : t ∈ P.tree.threads) (hfork : P.IsForked t) :
    P.Settled t := by
  by_cases hbest : ∃ j ∈ P.joinNodes, ∀ u, P.IsBestFor j u ↔ u = t
  · obtain ⟨j, hj, hbest⟩ := hbest
    exact Or.inr ⟨j, hj, hbest, fun j' hj' hbest' =>
      h.isBestFor_unique hj' hj hbest' ((hbest t).mpr rfl)⟩
  · exact Or.inl fun j hj j' hj' =>
      h.aliases_unique ht hfork (fun i hi hall => hbest ⟨i, hi, hall⟩) hj hj'

/-- **The threads are matched** exactly if every forked thread is settled, and the threads of entry
functions were made with no node that is not their join node. -/
theorem matched_iff (P : JoinInput) : P.Matched ↔
    (∀ t ∈ P.tree.threads, ¬P.IsForked t → P.EntryHolds t) ∧
      ∀ t ∈ P.tree.threads, P.IsForked t → P.Settled t := by
  constructor
  · intro h
    refine ⟨fun t ht hfork j hj => ?_, fun t ht hfork => h.settled ht hfork⟩
    refine h.sound (stableSort ThreadId) ⟨_, _, List.Perm.refl _, List.Perm.refl _⟩ t ht j ?_
    rw [joinNode_handleJoins_of_not hfork, hj]
  · rintro ⟨hentry, hsettled⟩
    refine ⟨fun sort o t ht j hj => ?_, fun sort o t ht hfork hexists => ?_,
      fun sort o o' t ht => ?_⟩
    · by_cases hfork : P.IsForked t
      · exact aliases_of_joinNode ht hfork hj
      · rw [joinNode_handleJoins_of_not hfork] at hj
        exact hentry t ht hfork j hj
    · obtain ⟨j, hj, halias⟩ := hexists
      exact exists_joinNode sort o ht hfork hj halias
    · by_cases hfork : P.IsForked t
      · exact (hsettled t ht hfork).reordered ht hfork
      · rw [joinNode_handleJoins_of_not hfork, joinNode_handleJoins_of_not hfork]

/-! ### A thread with two joins -/

/-- A worker that is forked at node 2 and joined at node 3 or at node 4. -/
def twoJoinsTree : ThreadCreationTree where
  ccpg :=
    { nodes := [1, 2, 3, 4, 5]
      type := fun n => if n = 2 then .fork else if n = 3 ∨ n = 4 then .join else .dummy
      isCallSite := fun n => 2 ≤ n ∧ n ≤ 4
      edges := [⟨1, 2, .order⟩, ⟨2, 3, .order⟩, ⟨2, 4, .order⟩, ⟨2, 5, .hb⟩]
      mem_nodes := by decide }
  threads := [0, 1]
  thread t :=
    if t = 1 then ⟨some 0, 2, none, [5], false, false, "worker"⟩
    else ⟨none, 1, none, [1, 2, 3, 4], true, false, "main"⟩
  parent_lt t p h := by
    split_ifs at h with ht
    have hp : 0 = p := Option.some.inj h
    rw [ht, ← hp]
    exact Nat.zero_lt_one
  forkNode_inj t u ht hu _ := by
    split_ifs at ht hu with ht' hu'
    · exact ht'.trans hu'.symm
    · exact absurd rfl hu
    · exact absurd rfl ht
    · exact absurd rfl ht
  isKernelEntry_of_ne t u ht hu htu := by
    split_ifs at ht with ht'
    rw [if_neg ht']

/-- Both joins alias the handle of the worker. -/
def twoJoins : JoinInput where
  tree := twoJoinsTree
  threads_nodup := by decide
  getFunction _ := 0
  handleCode _ := "&worker".toList
  isThreadAlias m n := decide (2 ≤ m ∧ m ≤ 4) && decide (2 ≤ n ∧ n ≤ 4)
  isThreadAlias_comm _ _ := Bool.and_comm _ _

/-- Which of the two joins is met first decides. -/
theorem twoJoins_not_matched : ¬twoJoins.Matched := by
  intro h
  have hbest : ∀ j ∈ twoJoins.joinNodes, twoJoins.IsBestFor j 1 := by
    unfold IsBestFor IsBest
    decide
  have hsettled := h.settled (t := 1) (by decide) (by decide)
  rcases hsettled with honly | ⟨j, -, -, hother⟩
  · exact absurd (honly 3 (by decide) 4 (by decide) (by decide) (by decide)) (by decide)
  · have h3 := hother 3 (by decide) (hbest 3 (by decide))
    have h4 := hother 4 (by decide) (hbest 4 (by decide))
    exact absurd (h3.trans h4.symm) (by decide)

end JoinInput

end Lace
