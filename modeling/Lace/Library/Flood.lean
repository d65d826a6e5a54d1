import Mathlib.Data.Finset.Dedup
import Lace.Library.Worklist

/-!
# Flooding a graph from a queue

Three loops that collect what can be reached in a graph with a queue. Two mark a node when it is
taken off the queue, so that a node can be queued more than once: `visitAll` queues all successors,
`markAll` starts from several roots and queues the successors that are not marked. The third marks
a node when it is queued, and stays inside a given set of nodes.

None of the loops has a bound on its turns: the nodes that are left to mark decrease.

## Main definitions

* `visitAll`, `markAll`: the loops that mark at the head of the queue;
* `flood`: the loop that marks at the end of the queue.

## Main results

* `mem_visitAll`, `mem_markAll`, `mem_flood`: they collect exactly what can be reached.
-/

namespace Lace.Library

variable {α : Type*}

/-- A set that has the root, has nothing but what can be reached from it, and is closed under the
steps is the set of what can be reached. -/
theorem mem_iff_reflTransGen {r : α → α → Prop} {root n : α} {S : List α} (hroot : root ∈ S)
    (hsound : ∀ m ∈ S, Relation.ReflTransGen r root m)
    (hclosed : ∀ m ∈ S, ∀ n, r m n → n ∈ S) : n ∈ S ↔ Relation.ReflTransGen r root n := by
  refine ⟨hsound n, fun h => ?_⟩
  induction h with
  | refl => exact hroot
  | tail _ hstep ih => exact hclosed _ ih _ hstep

/-! ### Marking at the head of the queue -/

section VisitAll

variable {succs : α → List α}

/-- What holds of the queue and the marked nodes of a run from some roots. -/
structure MarkInv (succs : α → List α) (roots queue marked : List α) : Prop where
  roots_mem : ∀ r ∈ roots, r ∈ marked ∨ r ∈ queue
  reachable : ∀ n, n ∈ marked ∨ n ∈ queue →
    ∃ r ∈ roots, Relation.ReflTransGen (fun m n => n ∈ succs m) r n
  closed : ∀ m ∈ marked, ∀ n ∈ succs m, n ∈ marked ∨ n ∈ queue

/-- The invariant holds at the start, with the roots waiting. -/
theorem markInv_start (roots : List α) : MarkInv succs roots roots [] where
  roots_mem _ hr := Or.inr hr
  reachable n hn := ⟨n, hn.resolve_left List.not_mem_nil, Relation.ReflTransGen.refl⟩
  closed _ hm := absurd hm List.not_mem_nil

namespace MarkInv

variable {roots queue marked new marked' : List α} {n : α}

/-- A node that was marked before is dropped. -/
theorem skip (h : MarkInv succs roots (n :: queue) marked) (hn : n ∈ marked) :
    MarkInv succs roots queue marked := by
  have hdrop : ∀ m, m ∈ marked ∨ m ∈ n :: queue → m ∈ marked ∨ m ∈ queue := by
    rintro m (hm | hm)
    · exact Or.inl hm
    · rcases List.mem_cons.mp hm with rfl | hm
      · exact Or.inl hn
      · exact Or.inr hm
  exact
    { roots_mem := fun r hr => hdrop r (h.roots_mem r hr)
      reachable := fun m hm => h.reachable m (hm.imp_right (List.mem_cons_of_mem n))
      closed := fun m hm k hk => hdrop k (h.closed m hm k hk) }

/-- A node that is marked brings successors, at least those that are not marked. -/
theorem mark (h : MarkInv succs roots (n :: queue) marked)
    (hmarked : ∀ m, m ∈ marked' ↔ m ∈ marked ∨ m = n) (hnew : ∀ m ∈ new, m ∈ succs n)
    (hleft : ∀ m ∈ succs n, m ∈ new ∨ m ∈ marked') :
    MarkInv succs roots (queue ++ new) marked' := by
  -- Nothing is lost: the node goes from the queue to the marked ones.
  have hkeep : ∀ m, m ∈ marked ∨ m ∈ n :: queue → m ∈ marked' ∨ m ∈ queue ++ new := by
    intro m hm
    rw [hmarked, List.mem_append]
    rw [List.mem_cons] at hm
    tauto
  obtain ⟨r, hr, hreach⟩ := h.reachable n (Or.inr List.mem_cons_self)
  refine ⟨fun r hr => hkeep r (h.roots_mem r hr), fun m hm => ?_, fun m hm k hk => ?_⟩
  · rw [hmarked, List.mem_append] at hm
    rcases hm with (hm | rfl) | (hm | hm)
    · exact h.reachable m (Or.inl hm)
    · exact ⟨r, hr, hreach⟩
    · exact h.reachable m (Or.inr (List.mem_cons_of_mem n hm))
    · exact ⟨r, hr, hreach.tail (hnew m hm)⟩
  · rcases (hmarked m).mp hm with hm | rfl
    · exact hkeep k (h.closed m hm k hk)
    · exact (hleft k hk).symm.imp_right (List.mem_append_right _)

/-- When the queue is drained, the marked nodes are what can be reached. -/
theorem mem_iff (h : MarkInv succs roots [] marked) : n ∈ marked ↔
    ∃ r ∈ roots, Relation.ReflTransGen (fun m n => n ∈ succs m) r n := by
  refine ⟨fun hn => h.reachable n (Or.inl hn), ?_⟩
  rintro ⟨r, hr, hreach⟩
  induction hreach with
  | refl => exact (h.roots_mem r hr).resolve_right List.not_mem_nil
  | tail _ hstep ih => exact (h.closed _ ih _ hstep).resolve_right List.not_mem_nil

end MarkInv

/-- What holds of the queue and the visited nodes of a run from `root`. -/
structure VisitInv (succs : α → List α) (root : α) (queue visited : List α) : Prop where
  root_mem : root ∈ visited ∨ root ∈ queue
  reachable : ∀ n, n ∈ visited ∨ n ∈ queue →
    Relation.ReflTransGen (fun m n => n ∈ succs m) root n
  closed : ∀ m ∈ visited, ∀ n ∈ succs m, n ∈ visited ∨ n ∈ queue

/-- A run from one root. -/
theorem visitInv_iff {root : α} {queue visited : List α} :
    VisitInv succs root queue visited ↔ MarkInv succs [root] queue visited := by
  constructor
  · rintro ⟨hroot, hreach, hclosed⟩
    exact ⟨by simpa using hroot, by simpa using hreach, hclosed⟩
  · rintro ⟨hroot, hreach, hclosed⟩
    exact ⟨by simpa using hroot, by simpa using hreach, hclosed⟩

/-- The invariant holds at the start, with the root waiting. -/
theorem visitInv_start (root : α) : VisitInv succs root [root] [] :=
  visitInv_iff.mpr (markInv_start [root])

namespace VisitInv

variable {root n : α} {queue visited : List α}

/-- A node that was visited before is dropped. -/
theorem skip (h : VisitInv succs root (n :: queue) visited) (hn : n ∈ visited) :
    VisitInv succs root queue visited :=
  visitInv_iff.mpr ((visitInv_iff.mp h).skip hn)

/-- A node that is visited brings its successors. -/
theorem visit (h : VisitInv succs root (n :: queue) visited) :
    VisitInv succs root (queue ++ succs n) (visited ++ [n]) := by
  refine visitInv_iff.mpr ((visitInv_iff.mp h).mark ?_ (fun m hm => hm) fun m hm => Or.inl hm)
  simp

end VisitInv

variable [DecidableEq α] (U : Finset α)

/-- What is left to visit: nodes of `U` and nodes on the queue. -/
def pending (queue visited : List α) : Finset α :=
  (U ∪ queue.toFinset).filter (· ∉ visited)

variable {U}

theorem mem_pending {queue visited : List α} {n : α} :
    n ∈ pending U queue visited ↔ (n ∈ U ∨ n ∈ queue) ∧ n ∉ visited := by
  simp [pending]

/-- Taking a node off the queue adds nothing that is pending. -/
theorem card_pending_tail_le (queue visited : List α) (n : α) :
    (pending U queue visited).card ≤ (pending U (n :: queue) visited).card := by
  refine Finset.card_le_card fun m hm => ?_
  rw [mem_pending] at hm ⊢
  exact ⟨hm.1.imp_right (List.mem_cons_of_mem n), hm.2⟩

/-- A visit takes a node out of what is left: its successors were counted before. -/
theorem card_pending_visit_lt (hU : ∀ n, ∀ m ∈ succs n, m ∈ U) {queue visited : List α} {n : α}
    (hn : n ∉ visited) : (pending U (queue ++ succs n) (visited ++ [n])).card <
      (pending U (n :: queue) visited).card := by
  apply Finset.card_lt_card
  refine Finset.ssubset_iff_of_subset ?_ |>.mpr ⟨n, ?_, ?_⟩
  · intro m hm
    rw [mem_pending] at hm ⊢
    refine ⟨?_, fun h => hm.2 (List.mem_append_left _ h)⟩
    rcases hm.1 with hmU | hq
    · exact Or.inl hmU
    · rcases List.mem_append.mp hq with hq | hs
      · exact Or.inr (List.mem_cons_of_mem n hq)
      · exact Or.inl (hU n m hs)
  · exact mem_pending.mpr ⟨Or.inr List.mem_cons_self, hn⟩
  · simp [mem_pending]

/-- A visit of a node without successors. -/
theorem card_pending_tail_lt {queue visited : List α} {n : α} (hn : n ∉ visited) :
    (pending U queue (visited ++ [n])).card < (pending U (n :: queue) visited).card := by
  have hlt := @card_pending_visit_lt α (fun _ => []) _ U (by simp) queue visited n hn
  rwa [List.append_nil] at hlt

/-- Take a node off the queue; if it was not visited, visit it and queue its successors. -/
def visitAll (U : Finset α) (succs : α → List α) (hU : ∀ n, ∀ m ∈ succs n, m ∈ U) :
    List α → List α → List α
  | [], visited => visited
  | n :: queue, visited =>
      if n ∈ visited then visitAll U succs hU queue visited
      else visitAll U succs hU (queue ++ succs n) (visited ++ [n])
termination_by queue visited => ((pending U queue visited).card, queue.length)
decreasing_by
  · exact lex_of_le_of_lt (card_pending_tail_le queue visited n) (Nat.lt_succ_self _)
  · rename_i hn
    exact Prod.Lex.left _ _ (card_pending_visit_lt hU hn)

namespace VisitInv

variable {root n : α} {queue visited : List α}

/-- The queue is drained in the end. -/
theorem visitAll {U : Finset α} {hU : ∀ n, ∀ m ∈ succs n, m ∈ U}
    (h : VisitInv succs root queue visited) :
    VisitInv succs root [] (visitAll U succs hU queue visited) := by
  fun_induction Library.visitAll U succs hU queue visited with
  | case1 visited => exact h
  | case2 n queue visited hn ih => exact ih (h.skip hn)
  | case3 n queue visited hn ih => exact ih h.visit

end VisitInv

variable {hU : ∀ n, ∀ m ∈ succs n, m ∈ U}

/-- The loop visits what can be reached from the root. -/
theorem mem_visitAll {root n : α} : n ∈ visitAll U succs hU [root] [] ↔
    Relation.ReflTransGen (fun m n => n ∈ succs m) root n := by
  have h : VisitInv succs root [] (visitAll U succs hU [root] []) :=
    (visitInv_start root).visitAll
  rw [(visitInv_iff.mp h).mem_iff]
  simp

/-- The successors that are not marked. -/
def unmarked (succs : α → List α) (marked : List α) (n : α) : List α :=
  (succs n).filter (· ∉ marked)

theorem mem_unmarked {marked : List α} {m n : α} :
    m ∈ unmarked succs marked n ↔ m ∈ succs n ∧ m ∉ marked := by
  simp [unmarked]

/-- Marking a node takes it out of what is left. -/
theorem card_pending_mark_lt (hU : ∀ n, ∀ m ∈ succs n, m ∈ U) {queue marked : List α} {n : α}
    (hn : n ∉ marked) :
    (pending U (queue ++ unmarked succs (marked ++ [n]) n) (marked ++ [n])).card <
      (pending U (n :: queue) marked).card := by
  refine lt_of_le_of_lt (Finset.card_le_card fun m hm => ?_) (card_pending_visit_lt hU hn)
  rw [mem_pending, List.mem_append] at hm ⊢
  exact ⟨hm.1.imp_right (Or.imp_right fun hnew => (mem_unmarked.mp hnew).1), hm.2⟩

/-- Take a node off the queue; if it is not marked, mark it and queue its successors that are not
marked. -/
def markAll (U : Finset α) (succs : α → List α) (hU : ∀ n, ∀ m ∈ succs n, m ∈ U) :
    List α → List α → List α
  | [], marked => marked
  | n :: queue, marked =>
      if n ∈ marked then markAll U succs hU queue marked
      else markAll U succs hU (queue ++ unmarked succs (marked ++ [n]) n) (marked ++ [n])
termination_by queue marked => ((pending U queue marked).card, queue.length)
decreasing_by
  · exact lex_of_le_of_lt (card_pending_tail_le queue marked n) (Nat.lt_succ_self _)
  · rename_i hn
    exact Prod.Lex.left _ _ (card_pending_mark_lt hU hn)

namespace MarkInv

variable {roots queue marked : List α}

/-- The queue is drained in the end. -/
theorem markAll {U : Finset α} {hU : ∀ n, ∀ m ∈ succs n, m ∈ U}
    (h : MarkInv succs roots queue marked) :
    MarkInv succs roots [] (markAll U succs hU queue marked) := by
  fun_induction Library.markAll U succs hU queue marked with
  | case1 marked => exact h
  | case2 n queue marked hn ih => exact ih (h.skip hn)
  | case3 n queue marked hn ih =>
    refine ih (h.mark (by simp) (fun m hm => (mem_unmarked.mp hm).1) fun m hm => ?_)
    by_cases hmem : m ∈ marked ++ [n]
    · exact Or.inr hmem
    · exact Or.inl (mem_unmarked.mpr ⟨hm, hmem⟩)

end MarkInv

/-- The loop marks what can be reached from one of the roots. -/
theorem mem_markAll {roots : List α} {n : α} : n ∈ markAll U succs hU roots [] ↔
    ∃ r ∈ roots, Relation.ReflTransGen (fun m n => n ∈ succs m) r n :=
  (markInv_start roots).markAll.mem_iff

end VisitAll

/-! ### Marking at the end of the queue -/

section Flood

variable {U : Finset α} {succs : α → List α}

/-- A step of the flood. -/
def FloodStep (U : Finset α) (succs : α → List α) (m n : α) : Prop := n ∈ succs m ∧ n ∈ U

/-- What holds of the queue and the marked nodes of a flood from `root`. -/
structure FloodInv (U : Finset α) (succs : α → List α) (root : α) (queue reached : List α) :
    Prop where
  root_mem : root ∈ reached
  reachable : ∀ n ∈ reached, Relation.ReflTransGen (FloodStep U succs) root n
  queue_subset : ∀ n ∈ queue, n ∈ reached
  closed : ∀ m ∈ reached, m ∉ queue → ∀ n, FloodStep U succs m n → n ∈ reached

/-- The invariant holds at the start, with the root reached. -/
theorem floodInv_start (root : α) : FloodInv U succs root [root] [root] where
  root_mem := List.mem_cons_self
  reachable n hn := by
    rw [List.mem_singleton.mp hn]
  queue_subset _ hn := hn
  closed _ hm hnot := absurd hm hnot

variable [DecidableEq α]

/-- The successors that are marked now. -/
def fresh (U : Finset α) (succs : α → List α) (reached : List α) (n : α) : List α :=
  ((succs n).filter fun m => m ∈ U ∧ m ∉ reached).dedup

theorem mem_fresh {reached : List α} {m n : α} :
    m ∈ fresh U succs reached n ↔ m ∈ succs n ∧ m ∈ U ∧ m ∉ reached := by
  simp [fresh]

theorem nodup_fresh (reached : List α) (n : α) : (fresh U succs reached n).Nodup :=
  List.nodup_dedup _

/-- Take a node off the queue, mark its successors in `U` that are not marked yet, and queue
them. -/
def flood (U : Finset α) (succs : α → List α) : List α → List α → List α
  | [], reached => reached
  | n :: queue, reached =>
      flood U succs (queue ++ fresh U succs reached n) (fresh U succs reached n ++ reached)
termination_by queue reached => (U.filter (· ∉ reached)).card + queue.length
decreasing_by
  -- A node that is marked pays for its place on the queue.
  have hnodup : (fresh U succs reached n).Nodup := nodup_fresh reached n
  have hle := card_unvisited_append_le U hnodup
    (fun m hm => (mem_fresh.mp hm).2.1) fun m hm => (mem_fresh.mp hm).2.2
  rw [List.length_append, List.length_cons]
  omega

namespace FloodInv

variable {root n : α} {queue reached : List α}

/-- One turn keeps the invariant. -/
theorem turn (h : FloodInv U succs root (n :: queue) reached) :
    FloodInv U succs root (queue ++ fresh U succs reached n)
      (fresh U succs reached n ++ reached) where
  root_mem := List.mem_append_right _ h.root_mem
  reachable := by
    intro m hm
    rcases List.mem_append.mp hm with hm | hm
    · obtain ⟨hsucc, hU, -⟩ := mem_fresh.mp hm
      exact (h.reachable n (h.queue_subset n List.mem_cons_self)).tail ⟨hsucc, hU⟩
    · exact h.reachable m hm
  queue_subset := by
    intro m hm
    rcases List.mem_append.mp hm with hm | hm
    · exact List.mem_append_right _ (h.queue_subset m (List.mem_cons_of_mem n hm))
    · exact List.mem_append_left _ hm
  closed := by
    intro m hm hnot k hk
    obtain ⟨hqueue, hfresh⟩ := not_or.mp (mt List.mem_append.mpr hnot)
    have hreached := (List.mem_append.mp hm).resolve_left hfresh
    by_cases hmn : m = n
    · -- The successors of the node off the queue were marked before, or are marked now.
      subst hmn
      by_cases hkr : k ∈ reached
      · exact List.mem_append_right _ hkr
      · exact List.mem_append_left _ (mem_fresh.mpr ⟨hk.1, hk.2, hkr⟩)
    · have hnot' : m ∉ n :: queue := fun hmem => hqueue (List.mem_of_ne_of_mem hmn hmem)
      exact List.mem_append_right _ (h.closed m hreached hnot' k hk)

/-- The invariant holds when the queue is empty. -/
theorem flood (h : FloodInv U succs root queue reached) :
    FloodInv U succs root [] (flood U succs queue reached) := by
  fun_induction Library.flood U succs queue reached with
  | case1 reached => exact h
  | case2 n queue reached ih => exact ih h.turn

end FloodInv

/-- The flood marks what can be reached from the root inside `U`. -/
theorem mem_flood {root n : α} : n ∈ flood U succs [root] [root] ↔
    Relation.ReflTransGen (FloodStep U succs) root n := by
  have h : FloodInv U succs root [] (flood U succs [root] [root]) :=
    (floodInv_start root).flood
  exact mem_iff_reflTransGen h.root_mem h.reachable fun m hm n hn =>
    h.closed m hm List.not_mem_nil n hn

end Flood

end Lace.Library
