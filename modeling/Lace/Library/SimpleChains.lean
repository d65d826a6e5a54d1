import Mathlib.Data.Finset.Dedup
import Mathlib.Data.List.Chain
import Lace.Library.Worklist

/-!
# Enumerating the chains without repetition

A search with backtracking walks a graph backwards from a target and collects the chains that lead
from a root to it. The nodes on the current chain are marked; a mark is taken back when the search
leaves its node. The root ends a chain, and is never marked.

## Main definitions

* `SimpleChain`: a chain in which no node occurs twice;
* `dfs`, `dfsCallers`: the search, with the marks as a part of its state;
* `chainsFrom`: what the search finds;
* `Avoids`: a chain that the search can still find.

## Main results

* `search_induction`: the induction over the nodes without a mark;
* `mem_chainsFrom`: the search finds the chains that avoid the marks;
* `nodup_chainsFrom`: it finds each of them once.
-/

namespace Lace.Library

variable {α : Type*}

/-- A chain from `a` to `b` in which no node occurs twice. -/
structure SimpleChain (r : α → α → Prop) (a b : α) (p : List α) : Prop where
  /-- It starts at `a`. -/
  head : p.head? = some a
  /-- It ends at `b`. -/
  last : p.getLast? = some b
  /-- Each node is related to the next one. -/
  chain : p.IsChain r
  /-- No node occurs twice. -/
  nodup : p.Nodup

/-- The marks that a call leaves, which are those that it got, and the chains that are found. -/
abbrev Found (visited : Finset α) := { s : Finset α × List (List α) // s.1 = visited }

variable [DecidableEq α]

/-- What is left to mark, with some nodes that come next. -/
def unseen (U : Finset α) (next : List α) (visited : Finset α) : Finset α :=
  (next.toFinset ∪ U) \ visited

theorem mem_unseen {U visited : Finset α} {next : List α} {n : α} :
    n ∈ unseen U next visited ↔ (n ∈ next ∨ n ∈ U) ∧ n ∉ visited := by
  simp [unseen]

theorem card_unseen_le {U visited : Finset α} {next next' : List α} (h : next ⊆ next') :
    (unseen U next visited).card ≤ (unseen U next' visited).card := by
  refine Finset.card_le_card fun n hn => ?_
  rw [mem_unseen] at hn ⊢
  exact ⟨hn.1.imp_left fun hnext => h hnext, hn.2⟩

/-- Marking a node leaves less, if the nodes that come next are counted before. -/
theorem card_unseen_insert_lt {U visited : Finset α} {next : List α} {n : α}
    (hnext : ∀ m ∈ next, m ∈ U) (hn : n ∉ visited) :
    (unseen U next (insert n visited)).card < (unseen U [n] visited).card := by
  apply Finset.card_lt_card
  refine Finset.ssubset_iff_of_subset ?_ |>.mpr ⟨n, ?_, ?_⟩
  · intro m hm
    rw [mem_unseen, Finset.mem_insert, not_or] at hm
    exact mem_unseen.mpr ⟨Or.inr (hm.1.elim (hnext m) id), hm.2.2⟩
  · exact mem_unseen.mpr ⟨Or.inl List.mem_cons_self, hn⟩
  · simp [mem_unseen]

/-- A search that marks a node before it goes on to its callers: a fact holds of all states if it
holds of a state wherever it holds of the states at the callers. -/
theorem search_induction {U : Finset α} {callers : α → List α}
    (hU : ∀ n, ∀ m ∈ callers n, m ∈ U) {motive : Finset α → List α → α → Prop}
    (step : ∀ visited path current,
      (current ∉ visited →
        ∀ n ∈ callers current, motive (insert current visited) (path ++ [current]) n) →
      motive visited path current)
    (visited : Finset α) (path : List α) (current : α) : motive visited path current := by
  induction hcard : (unseen U [current] visited).card using Nat.strong_induction_on
    generalizing visited path current with
  | _ k ih =>
    refine step visited path current fun hmem n hn => ih _ (hcard ▸ ?_) _ _ n rfl
    exact card_unseen_insert_lt (by simpa using hU current n hn) hmem

mutual

/-- Extend the current chain, which is `path` from its end, by a node. -/
def dfs (U : Finset α) (callers : α → List α) (hU : ∀ n, ∀ m ∈ callers n, m ∈ U) (root : α)
    (visited : Finset α) (path : List α) (current : α) (result : List (List α)) : Found visited :=
  if current = root then ⟨(visited, result ++ [(path ++ [current]).reverse]), rfl⟩
  else if hmem : current ∈ visited then ⟨(visited, result), rfl⟩
  else
    let s := dfsCallers U callers hU root (insert current visited) (path ++ [current])
      (callers current) result
    -- The mark is taken back.
    ⟨(s.1.1.erase current, s.1.2), by rw [s.2, Finset.erase_insert hmem]⟩
termination_by ((unseen U [current] visited).card, 0)
decreasing_by exact Prod.Lex.left _ _ (card_unseen_insert_lt (hU current) hmem)

/-- Extend the current chain by each of some nodes. -/
def dfsCallers (U : Finset α) (callers : α → List α) (hU : ∀ n, ∀ m ∈ callers n, m ∈ U) (root : α)
    (visited : Finset α) (path : List α) (nodes : List α) (result : List (List α)) :
    Found visited :=
  match nodes with
  | [] => ⟨(visited, result), rfl⟩
  | n :: nodes =>
    let s := dfs U callers hU root visited path n result
    let t := dfsCallers U callers hU root s.1.1 path nodes s.1.2
    ⟨t.1, t.2.trans s.2⟩
termination_by ((unseen U nodes visited).card, nodes.length + 1)
decreasing_by
  · exact lex_of_le_of_lt (card_unseen_le (by simp)) (Nat.succ_pos _)
  · rw [s.2]
    exact lex_of_le_of_lt (card_unseen_le (List.subset_cons_self _ _)) (Nat.lt_succ_self _)

end

section Chains

variable {U : Finset α} {callers : α → List α} {hU : ∀ n, ∀ m ∈ callers n, m ∈ U} {root : α}
  {visited : Finset α} {path : List α} {current n : α} {result : List (List α)}

/-- The chains that are found from a node. -/
def chainsFrom (U : Finset α) (callers : α → List α) (hU : ∀ n, ∀ m ∈ callers n, m ∈ U) (root : α)
    (visited : Finset α) (path : List α) (current : α) : List (List α) :=
  (dfs U callers hU root visited path current []).1.2

theorem dfsCallers_congr {visited' : Finset α} {nodes : List α} (h : visited = visited') :
    (dfsCallers U callers hU root visited path nodes result).1.2 =
      (dfsCallers U callers hU root visited' path nodes result).1.2 := by
  subst h
  rfl

/-- The callers are searched one after the other, each with the same marks. -/
theorem dfsCallers_result (nodes : List α)
    (hdfs : ∀ n ∈ nodes, ∀ result, (dfs U callers hU root visited path n result).1.2 =
      result ++ chainsFrom U callers hU root visited path n) :
    (dfsCallers U callers hU root visited path nodes result).1.2 =
      result ++ nodes.flatMap (chainsFrom U callers hU root visited path) := by
  induction nodes generalizing result with
  | nil => rw [dfsCallers, List.flatMap_nil, List.append_nil]
  | cons n nodes ih =>
    obtain ⟨hn, hnodes⟩ := List.forall_mem_cons.mp hdfs
    -- The marks are the same again when the first node is done.
    have hsame := (dfs U callers hU root visited path n result).2
    rw [dfsCallers]
    show (dfsCallers U callers hU root (dfs U callers hU root visited path n result).1.1 path nodes
      (dfs U callers hU root visited path n result).1.2).1.2 = _
    rw [dfsCallers_congr hsame, hn, ih hnodes, List.flatMap_cons, List.append_assoc]

/-- What is found is added to what was found before. -/
theorem dfs_result (visited : Finset α) (path : List α) (current : α) (result : List (List α)) :
    (dfs U callers hU root visited path current result).1.2 =
      result ++ chainsFrom U callers hU root visited path current := by
  induction visited, path, current using search_induction hU generalizing result with
  | step visited path current ih =>
    rw [chainsFrom, dfs, dfs]
    split
    next => rfl
    next =>
      split
      next => exact (List.append_nil result).symm
      next hmem =>
        -- The callers are searched with one more mark.
        show (dfsCallers _ _ _ _ _ _ _ _).1.2 = result ++ (dfsCallers _ _ _ _ _ _ _ _).1.2
        rw [dfsCallers_result _ (ih hmem), dfsCallers_result _ (ih hmem), List.nil_append]

/-- The search goes backwards: to the root, or on from the callers. -/
theorem chainsFrom_eq : chainsFrom U callers hU root visited path current =
    if current = root then [(path ++ [current]).reverse]
    else if current ∈ visited then []
    else (callers current).flatMap
      (chainsFrom U callers hU root (insert current visited) (path ++ [current])) := by
  rw [chainsFrom, dfs]
  split
  next => rfl
  next =>
    split
    next => rfl
    next => exact dfsCallers_result _ fun n _ => dfs_result _ _ n

end Chains

/-! ### Chains that end at the root or behind it -/

section SimpleChain

variable {r : α → α → Prop} {a b : α} {p : List α}

omit [DecidableEq α] in
/-- The chain from a node to itself. -/
theorem simpleChain_self_iff : SimpleChain r a a p ↔ p = [a] := by
  constructor
  · rintro ⟨hhead, hlast, -, hnodup⟩
    cases p with
    | nil => cases hhead
    | cons x q =>
      obtain rfl : x = a := Option.some.inj hhead
      -- A longer chain would have the node at both ends.
      cases q with
      | nil => rfl
      | cons y q =>
        rw [List.getLast?_cons_cons] at hlast
        exact absurd (List.mem_of_getLast? hlast) (List.nodup_cons.mp hnodup).1
  · rintro rfl
    exact ⟨rfl, rfl, List.isChain_singleton a, List.nodup_singleton a⟩

omit [DecidableEq α] in
/-- A chain that ends at another node is a chain to one that is related to it, and the node. -/
theorem simpleChain_iff_of_ne (hne : b ≠ a) : SimpleChain r a b p ↔
    ∃ c q, r c b ∧ SimpleChain r a c q ∧ b ∉ q ∧ p = q ++ [b] := by
  constructor
  · rintro ⟨hhead, hlast, hchain, hnodup⟩
    obtain ⟨q, rfl⟩ := List.getLast?_eq_some_iff.mp hlast
    obtain ⟨hq, -, hstep⟩ := List.isChain_append.mp hchain
    obtain ⟨hnodup, -, hdisjoint⟩ := List.nodup_append.mp hnodup
    have hb : b ∉ q := fun hmem => hdisjoint b hmem b List.mem_cons_self rfl
    cases q with
    | nil => exact absurd (Option.some.inj hhead) hne
    | cons x q =>
      have hlast' : (x :: q).getLast? = some ((x :: q).getLast (List.cons_ne_nil x q)) :=
        List.getLast?_eq_some_getLast _
      exact ⟨_, x :: q, hstep _ hlast' b rfl, ⟨hhead, hlast', hq, hnodup⟩, hb, rfl⟩
  · rintro ⟨c, q, hstep, ⟨hhead, hlast, hchain, hnodup⟩, hb, rfl⟩
    refine ⟨?_, List.getLast?_concat, ?_, ?_⟩
    · rw [List.head?_append, hhead]
      rfl
    · refine List.isChain_append.mpr ⟨hchain, List.isChain_singleton b, ?_⟩
      intro x hx y hy
      obtain rfl : c = x := Option.some.inj (hlast.symm.trans hx)
      obtain rfl : b = y := Option.some.inj hy
      exact hstep
    · exact List.nodup_append.mpr ⟨hnodup, List.nodup_singleton b, fun x hx y hy => by
        rw [List.mem_singleton.mp hy]
        exact fun heq => hb (heq ▸ hx)⟩

end SimpleChain

/-! ### What is found -/

section Found

variable {U : Finset α} {callers : α → List α} {hU : ∀ n, ∀ m ∈ callers n, m ∈ U} {root : α}
  {visited : Finset α} {path : List α} {current : α} {p : List α}

/-- A chain from the root, with the current chain behind it, that avoids the marks. -/
def Avoids (callers : α → List α) (root : α) (visited : Finset α) (path : List α) (current : α)
    (p : List α) : Prop :=
  ∃ q, p = q ++ path.reverse ∧ SimpleChain (fun m n => m ∈ callers n) root current q ∧
    ∀ x ∈ q, x ∉ visited

omit [DecidableEq α] in
/-- Such a chain to the root itself is the root. -/
theorem avoids_root_iff (hroot : root ∉ visited) :
    Avoids callers root visited path root p ↔ p = (path ++ [root]).reverse := by
  simp only [Avoids, simpleChain_self_iff, List.reverse_append, List.reverse_singleton]
  constructor
  · rintro ⟨q, rfl, rfl, -⟩
    rfl
  · rintro rfl
    exact ⟨[root], rfl, rfl, by simpa using hroot⟩

omit [DecidableEq α] in
/-- A marked node is on no chain that avoids the marks. -/
theorem not_avoids_of_mem (hmem : current ∈ visited) :
    ¬Avoids callers root visited path current p := by
  rintro ⟨q, -, hq, havoid⟩
  exact havoid current (List.mem_of_getLast? hq.last) hmem

/-- A chain to another node comes from one of its callers, and avoids the node before. -/
theorem avoids_iff_callers (hne : current ≠ root) (hmem : current ∉ visited) :
    Avoids callers root visited path current p ↔
      ∃ n ∈ callers current,
        Avoids callers root (insert current visited) (path ++ [current]) n p := by
  constructor
  · rintro ⟨q, rfl, hq, havoid⟩
    obtain ⟨n, front, hn, hfront, hnot, rfl⟩ := (simpleChain_iff_of_ne hne).mp hq
    refine ⟨n, hn, front, by simp, hfront, fun x hx => ?_⟩
    rw [Finset.mem_insert, not_or]
    exact ⟨fun heq => hnot (heq ▸ hx), havoid x (List.mem_append_left _ hx)⟩
  · rintro ⟨n, hn, q, rfl, hq, havoid⟩
    refine ⟨q ++ [current], by simp, (simpleChain_iff_of_ne hne).mpr ?_, fun x hx => ?_⟩
    · exact ⟨n, q, hn, hq, fun h => havoid current h (Finset.mem_insert_self _ _), rfl⟩
    · rcases List.mem_append.mp hx with hx | hx
      · exact fun h => havoid x hx (Finset.mem_insert_of_mem h)
      · rwa [List.mem_singleton.mp hx]

theorem notMem_insert_of_ne (hne : current ≠ root) (hroot : root ∉ visited) :
    root ∉ insert current visited := by
  rw [Finset.mem_insert, not_or]
  exact ⟨Ne.symm hne, hroot⟩

/-- The search finds the chains from the root that avoid the marks, with the current chain behind
them. -/
theorem mem_chainsFrom (hroot : root ∉ visited) :
    p ∈ chainsFrom U callers hU root visited path current ↔
      Avoids callers root visited path current p := by
  induction visited, path, current using search_induction hU with
  | step visited path current ih =>
    rw [chainsFrom_eq]
    split
    next heq =>
      subst heq
      rw [avoids_root_iff hroot, List.mem_singleton]
    next hne =>
      split
      next hmem => exact iff_of_false List.not_mem_nil (not_avoids_of_mem hmem)
      next hmem =>
        rw [List.mem_flatMap, avoids_iff_callers hne hmem]
        exact exists_congr fun n => and_congr_right fun hn =>
          ih hmem n hn (notMem_insert_of_ne hne hroot)

/-- Without marks all chains are found. -/
theorem mem_chainsFrom_start : p ∈ chainsFrom U callers hU root ∅ [] current ↔
    SimpleChain (fun m n => m ∈ callers n) root current p := by
  simp [mem_chainsFrom (Finset.notMem_empty root), Avoids]

/-- Each chain is found once. -/
theorem nodup_chainsFrom (hcallers : ∀ n, (callers n).Nodup) (hroot : root ∉ visited) :
    (chainsFrom U callers hU root visited path current).Nodup := by
  induction visited, path, current using search_induction hU with
  | step visited path current ih =>
    rw [chainsFrom_eq]
    split
    next => exact List.nodup_singleton _
    next hne =>
      split
      next => exact List.nodup_nil
      next hmem =>
        have hroot' := notMem_insert_of_ne hne hroot
        refine List.nodup_flatMap.mpr ⟨fun n hn => ih hmem n hn hroot', ?_⟩
        refine (hcallers current).imp fun hmn p hp hp' => ?_
        -- A chain that is found from two callers would end at both.
        obtain ⟨q, rfl, hq, -⟩ := (mem_chainsFrom hroot').mp hp
        obtain ⟨q', heq, hq', -⟩ := (mem_chainsFrom hroot').mp hp'
        obtain rfl := List.append_cancel_right heq
        exact hmn (Option.some.inj (hq.last.symm.trans hq'.last))

end Found

end Lace.Library
