import Mathlib.Data.Finset.Card
import Mathlib.Data.List.MinMax
import Mathlib.Logic.Relation

/-!
# Worklist traversals

A traversal takes the node with the least key off a worklist, marks it visited and queues its
successors that are not visited yet. The visited nodes are kept in a list, the last one first, so
that the list tells which nodes were visited before a node.

## Main definitions

* `turn`, `Traversal.run`: the traversal;
* `before`: the nodes visited before a node.

## Main results

* `Inv.turn`, `Traversal.Inv.run`: the invariant of the traversal;
* `mem_order`: a traversal visits what can be reached from its root.
-/

namespace Lace.Library.Traversal

variable {α β : Type*} [DecidableEq α] [LinearOrder β]

/-- The nodes visited before `n`, where the list has the last visited node first. -/
def before : List α → α → List α
  | [], _ => []
  | m :: vis, n => if n = m then vis else before vis n

/-- Visit `m`: a state is the list of visited nodes and the worklist. -/
def turn (succs : α → List α) (s : List α × List α) (m : α) : List α × List α :=
  (m :: s.1, ((succs m).filter (· ∉ m :: s.1)).foldl (fun work n => work.insert n) (s.2.erase m))

/-- The traversal, with fuel for the nodes it visits. -/
def run (succs : α → List α) (key : α → β) : ℕ → List α × List α → List α × List α
  | 0, s => s
  | fuel + 1, s =>
      match s.2.argmin key with
      | none => s
      | some m => run succs key fuel (turn succs s m)

/-- The visited nodes of the traversal from `root`. -/
def order (succs : α → List α) (key : α → β) (fuel : ℕ) (root : α) : List α :=
  (run succs key fuel ([], [root])).1

/-! ### Nodes visited before a node -/

section Before

variable {vis old : List α} {m n q : α}

@[simp]
theorem before_nil : before [] n = [] := rfl

@[simp]
theorem before_cons_self : before (m :: vis) m = vis := if_pos rfl

@[simp]
theorem before_cons_of_ne (h : n ≠ m) : before (m :: vis) n = before vis n := if_neg h

/-- What was visited before a node was visited. -/
theorem before_subset : before vis n ⊆ vis := by
  induction vis with
  | nil => exact List.Subset.refl _
  | cons m vis ih =>
      rw [before]
      split_ifs
      · exact List.subset_cons_self m vis
      · exact List.subset_cons_of_subset m ih

/-- No node comes twice before another one. -/
theorem nodup_before (hnodup : vis.Nodup) : (before vis n).Nodup := by
  induction vis with
  | nil => exact List.nodup_nil
  | cons m vis ih =>
      rw [before]
      split_ifs
      · exact (List.nodup_cons.mp hnodup).2
      · exact ih (List.nodup_cons.mp hnodup).2

/-- Before a node of the later part come the rest of that part and the whole earlier part. -/
theorem before_append_left (hn : n ∈ vis) : before (vis ++ old) n = before vis n ++ old := by
  induction vis with
  | nil => cases hn
  | cons m vis ih =>
      rw [List.cons_append, before, before]
      split_ifs with hnm
      · rfl
      · exact ih (List.mem_of_ne_of_mem hnm hn)

/-- Before a node of the earlier part come only nodes of that part. -/
theorem before_append_right (hn : n ∉ vis) : before (vis ++ old) n = before old n := by
  induction vis with
  | nil => rfl
  | cons m vis ih =>
      obtain ⟨hnm, hn⟩ := not_or.mp (mt List.mem_cons.mpr hn)
      rw [List.cons_append, before_cons_of_ne hnm, ih hn]

/-- Among the nodes before `n`, those before `q` are just those before `q`. -/
theorem before_before (hq : q ∈ before vis n) (hnodup : vis.Nodup) :
    before (before vis n) q = before vis q := by
  induction vis with
  | nil => cases hq
  | cons m vis ih =>
      obtain ⟨hm, hnodup⟩ := List.nodup_cons.mp hnodup
      have hqm : q ≠ m := by
        rintro rfl
        by_cases hn : n = q
        · rw [hn, before_cons_self] at hq
          exact hm hq
        · rw [before_cons_of_ne hn] at hq
          exact hm (before_subset hq)
      rw [before_cons_of_ne hqm]
      by_cases hn : n = m
      · rw [hn, before_cons_self]
      · rw [before_cons_of_ne hn] at hq ⊢
        exact ih hq hnodup

/-- Every node is visited once. -/
theorem not_mem_before_of_mem_before (hnodup : vis.Nodup) (hq : q ∈ before vis n) :
    n ∉ before vis q := by
  induction vis with
  | nil => cases hq
  | cons m vis ih =>
      obtain ⟨hm, hnodup⟩ := List.nodup_cons.mp hnodup
      intro hn
      by_cases hnm : n = m
      · subst hnm
        rw [before_cons_self] at hq
        have hqn : q ≠ n := fun h => hm (h ▸ hq)
        rw [before_cons_of_ne hqn] at hn
        exact hm (before_subset hn)
      · rw [before_cons_of_ne hnm] at hq
        have hqm : q ≠ m := fun h => hm (h ▸ before_subset hq)
        rw [before_cons_of_ne hqm] at hn
        exact ih hnodup hq hn

/-- No node was visited before itself. -/
theorem not_mem_before_self (hnodup : vis.Nodup) : n ∉ before vis n := fun h =>
  not_mem_before_of_mem_before hnodup h h

end Before

/-! ### The invariant of a traversal -/

variable {succs : α → List α} {key : α → β} {root m n : α} {s : List α × List α}

/-- One step along the graph. -/
def Step (succs : α → List α) (m n : α) : Prop := n ∈ succs m

/-- What holds of the visited nodes and the worklist of a traversal from `root`. -/
structure Inv (succs : α → List α) (root : α) (s : List α × List α) : Prop where
  visited_nodup : s.1.Nodup
  worklist_nodup : s.2.Nodup
  unvisited : ∀ n ∈ s.2, n ∉ s.1
  reachable : ∀ n, n ∈ s.1 ∨ n ∈ s.2 → Relation.ReflTransGen (Step succs) root n
  closed : ∀ m ∈ s.1, ∀ n ∈ succs m, n ∈ s.1 ∨ n ∈ s.2
  root_mem : root ∈ s.1 ∨ root ∈ s.2
  queued : ∀ n ∈ s.2, n = root ∧ s.1 = [] ∨ ∃ m ∈ s.1, n ∈ succs m
  visited : ∀ n ∈ s.1, n = root ∧ before s.1 n = [] ∨ ∃ m ∈ before s.1 n, n ∈ succs m

/-- Putting nodes into the worklist one by one adds exactly these. -/
theorem mem_foldl_insert {ns work : List α} :
    n ∈ ns.foldl (fun work n => work.insert n) work ↔ n ∈ work ∨ n ∈ ns := by
  induction ns generalizing work with
  | nil => simp
  | cons x ns ih =>
      rw [List.foldl_cons, ih, List.mem_insert_iff, List.mem_cons]
      tauto

/-- The worklist keeps one entry for each node. -/
theorem nodup_foldl_insert {ns work : List α} (hwork : work.Nodup) :
    (ns.foldl (fun work n => work.insert n) work).Nodup := by
  induction ns generalizing work with
  | nil => exact hwork
  | cons x ns ih => exact ih hwork.insert

/-- The worklist after a turn. -/
theorem mem_turn_worklist (hs : s.2.Nodup) : n ∈ (turn succs s m).2 ↔
    n ∈ s.2 ∧ n ≠ m ∨ n ∈ succs m ∧ n ≠ m ∧ n ∉ s.1 := by
  rw [turn, mem_foldl_insert, hs.mem_erase_iff, List.mem_filter]
  simp only [decide_eq_true_eq, List.mem_cons, not_or, and_comm]

/-- The traversal starts at the root with nothing visited. -/
theorem inv_start : Inv succs root ([], [root]) where
  visited_nodup := List.nodup_nil
  worklist_nodup := List.nodup_singleton root
  unvisited := by simp
  reachable := by
    intro n hn
    obtain rfl : n = root := by simpa using hn
    exact Relation.ReflTransGen.refl
  closed := by simp
  root_mem := by simp
  queued := by simp
  visited := by simp

namespace Inv

/-- One turn keeps the invariant: the node it takes is new, and each of its successors is waiting or
visited after it. -/
theorem turn (hinv : Inv succs root s) (hm : m ∈ s.2) : Inv succs root (turn succs s m) where
  visited_nodup := List.nodup_cons.mpr ⟨hinv.unvisited m hm, hinv.visited_nodup⟩
  worklist_nodup := nodup_foldl_insert (hinv.worklist_nodup.erase m)
  unvisited := by
    intro n hn hvis
    rcases (mem_turn_worklist hinv.worklist_nodup).mp hn with ⟨hwork, hne⟩ | ⟨-, hne, hnot⟩
    · exact hinv.unvisited n hwork (List.mem_of_ne_of_mem hne hvis)
    · exact hnot (List.mem_of_ne_of_mem hne hvis)
  reachable := by
    -- `m` was waiting, so it is reachable, and its successors are one step further.
    have hmr := hinv.reachable m (Or.inr hm)
    rintro n (hn | hn)
    · rcases List.mem_cons.mp hn with rfl | hn
      · exact hmr
      · exact hinv.reachable n (Or.inl hn)
    · rcases (mem_turn_worklist hinv.worklist_nodup).mp hn with ⟨hwork, -⟩ | ⟨hstep, -⟩
      · exact hinv.reachable n (Or.inr hwork)
      · exact hmr.tail hstep
  closed := by
    intro q hq n hn
    -- A successor of a visited node is `m`, was visited, or waits from now on.
    by_cases hnm : n = m
    · exact Or.inl (by rw [hnm]; exact List.mem_cons_self)
    by_cases hvis : n ∈ s.1
    · exact Or.inl (List.mem_cons_of_mem _ hvis)
    refine Or.inr ((mem_turn_worklist hinv.worklist_nodup).mpr ?_)
    rcases List.mem_cons.mp hq with rfl | hq
    · exact Or.inr ⟨hn, hnm, hvis⟩
    · exact Or.inl ⟨(hinv.closed q hq n hn).resolve_left hvis, hnm⟩
  root_mem := by
    by_cases hroot : root = m
    · exact Or.inl (by rw [hroot]; exact List.mem_cons_self)
    · refine hinv.root_mem.imp (List.mem_cons_of_mem _) fun h => ?_
      exact (mem_turn_worklist hinv.worklist_nodup).mpr (Or.inl ⟨h, hroot⟩)
  queued := by
    intro n hn
    -- Some node is visited by now, so what waits was put there by a visited node.
    refine Or.inr ?_
    rcases (mem_turn_worklist hinv.worklist_nodup).mp hn with ⟨hwork, hne⟩ | ⟨hstep, -⟩
    · rcases hinv.queued n hwork with ⟨rfl, hnil⟩ | ⟨q, hq, hstep⟩
      · -- nothing was visited, so only the root was queued
        rcases hinv.queued m hm with ⟨rfl, -⟩ | ⟨q, hq, -⟩
        · exact absurd rfl hne
        · rw [hnil] at hq
          cases hq
      · exact ⟨q, List.mem_cons_of_mem _ hq, hstep⟩
    · exact ⟨m, List.mem_cons_self, hstep⟩
  visited := by
    intro n hn
    show n = root ∧ before (m :: s.1) n = [] ∨ ∃ q ∈ before (m :: s.1) n, n ∈ succs q
    -- `m` is the latest visit; before any other node come the same nodes as ever.
    by_cases hnm : n = m
    · subst hnm
      rw [before_cons_self]
      exact hinv.queued n hm
    · rw [before_cons_of_ne hnm]
      exact hinv.visited n (List.mem_of_ne_of_mem hnm hn)

/-- The invariant holds after any number of turns. -/
theorem run (hinv : Inv succs root s) (fuel : ℕ) : Inv succs root (run succs key fuel s) := by
  induction fuel generalizing s with
  | zero => exact hinv
  | succ fuel ih =>
      unfold Traversal.run
      cases hmin : s.2.argmin key with
      | none => exact hinv
      | some m => exact ih (hinv.turn (List.argmin_mem hmin))

/-- The traversal drains its worklist: no node is visited twice. -/
theorem run_worklist {U : Finset α} (hU : ∀ n, Relation.ReflTransGen (Step succs) root n → n ∈ U)
    {fuel : ℕ} (hinv : Inv succs root s) (hfuel : U.card < s.1.length + fuel) :
    (Traversal.run succs key fuel s).2 = [] := by
  have hle : s.1.length ≤ U.card := by
    rw [← List.toFinset_card_of_nodup hinv.visited_nodup]
    exact Finset.card_le_card fun n hn =>
      hU n (hinv.reachable n (Or.inl (List.mem_toFinset.mp hn)))
  induction fuel generalizing s with
  | zero => omega
  | succ fuel ih =>
      unfold Traversal.run
      cases hmin : s.2.argmin key with
      | none => exact List.argmin_eq_none.mp hmin
      | some m =>
          have hinv' := hinv.turn (List.argmin_mem hmin)
          have hle' : (Traversal.turn succs s m).1.length ≤ U.card := by
            rw [← List.toFinset_card_of_nodup hinv'.visited_nodup]
            exact Finset.card_le_card fun n hn =>
              hU n (hinv'.reachable n (Or.inl (List.mem_toFinset.mp hn)))
          refine ih hinv' ?_ hle'
          -- Every turn visits a node.
          show U.card < (m :: s.1).length + fuel
          rw [List.length_cons]
          omega

end Inv

/-! ### Whole traversals -/

section Order

variable {U : Finset α} {fuel : ℕ}

/-- The order names no node twice. -/
theorem nodup_order : (order succs key fuel root).Nodup :=
  (inv_start.run fuel).visited_nodup

/-- A node is the root and comes first, or it is a successor of a node visited before it. -/
theorem order_visited (hn : n ∈ order succs key fuel root) :
    n = root ∧ before (order succs key fuel root) n = [] ∨
      ∃ m ∈ before (order succs key fuel root) n, n ∈ succs m :=
  (inv_start.run fuel).visited n hn

/-- The traversal ends with an empty worklist. -/
theorem run_worklist_eq_nil (hU : ∀ n, Relation.ReflTransGen (Step succs) root n → n ∈ U)
    (hfuel : U.card < fuel) : (run succs key fuel ([], [root])).2 = [] :=
  Inv.run_worklist hU inv_start (by simpa using hfuel)

/-- The traversal visits exactly what can be reached from its root. -/
theorem mem_order (hU : ∀ n, Relation.ReflTransGen (Step succs) root n → n ∈ U)
    (hfuel : U.card < fuel) :
    n ∈ order succs key fuel root ↔ Relation.ReflTransGen (Step succs) root n := by
  have hinv : Inv succs root (run succs key fuel ([], [root])) := inv_start.run fuel
  have hdrained : (run succs key fuel ([], [root])).2 = [] := run_worklist_eq_nil hU hfuel
  refine ⟨fun hn => hinv.reachable n (Or.inl hn), fun hn => ?_⟩
  rw [order]
  induction hn with
  | refl => simpa only [hdrained, List.not_mem_nil, or_false] using hinv.root_mem
  | tail _ hstep ih =>
      simpa only [hdrained, List.not_mem_nil, or_false] using hinv.closed _ ih _ hstep

end Order

end Lace.Library.Traversal
