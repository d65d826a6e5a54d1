import Lace.CCPG.CallGraph
import Lace.Library.SimpleChains

/-!
# All call paths

`getAllCallPaths` enumerates the call chains from a root function to a target function, from the
target back to its callers. What it returns is kept for the next query with the same functions.

## Main definitions

* `CallGraph.callPaths`: the chains that the search collects;
* `CallPathCache`: the results that are kept;
* `CallGraph.getAllCallPaths`: one query.

## Main result

* `getAllCallPaths_exact`: a query returns the call chains without a function twice.
-/

namespace Lace

open Library

namespace CallGraph

variable (G : CallGraph)

/-- `result` after the call `dfs(target, {}, visited)`. -/
def callPaths (target root : FuncId) : List (List FuncId) :=
  (dfs G.functions G.getCallers getCallers_subset root ∅ [] target []).1.2

/-- `callPathCache`: each entry is the result of a search. -/
structure CallPathCache where
  /-- The entries, by the root and the target. -/
  entries : List ((Option FuncId × Option FuncId) × List (List FuncId))
  /-- What is kept was found. -/
  found : ∀ root target paths, entries.lookup (root, target) = some paths →
    ∃ r t, root = some r ∧ target = some t ∧ paths = G.callPaths t r

/-- Nothing is kept yet. -/
def CallPathCache.empty : G.CallPathCache := ⟨[], by simp⟩

variable {G}

/-- Keep the result of a search. -/
def CallPathCache.store (cache : G.CallPathCache) (t r : FuncId) : G.CallPathCache where
  entries := ((some r, some t), G.callPaths t r) :: cache.entries
  found root target paths h := by
    rw [List.lookup_cons] at h
    split at h
    next heq =>
      obtain ⟨rfl, rfl⟩ := Prod.mk.inj (eq_of_beq heq)
      exact ⟨r, t, rfl, rfl, (Option.some.inj h).symm⟩
    next => exact cache.found root target paths h

/-- `getAllCallPaths`: the chains, and the cache afterwards. -/
def getAllCallPaths (cache : G.CallPathCache) (target root : Option FuncId) :
    List (List FuncId) × G.CallPathCache :=
  match cache.entries.lookup (root, target) with
  | some paths => (paths, cache)
  | none =>
      match target, root with
      | some t, some r => (G.callPaths t r, cache.store t r)
      -- Without a target or a root there is no chain, and nothing is kept.
      | _, _ => ([], cache)

variable {p : List FuncId} {t r : FuncId}

theorem mem_callPaths : p ∈ G.callPaths t r ↔ SimpleChain G.Calls r t p := by
  have hcalls : (fun m n => m ∈ G.getCallers n) = G.Calls := by
    funext m n
    rw [mem_getCallers]
  rw [← hcalls]
  exact mem_chainsFrom_start

theorem nodup_callPaths (t r : FuncId) : (G.callPaths t r).Nodup :=
  nodup_chainsFrom nodup_getCallers (Finset.notMem_empty r)

/-- What a query returns does not depend on the cache. -/
theorem fst_getAllCallPaths (cache : G.CallPathCache) (target root : Option FuncId) :
    (getAllCallPaths cache target root).1 =
      match target, root with
      | some t, some r => G.callPaths t r
      | _, _ => [] := by
  unfold getAllCallPaths
  cases hlookup : cache.entries.lookup (root, target) with
  | some paths =>
      obtain ⟨r, t, rfl, rfl, rfl⟩ := cache.found root target paths hlookup
      rfl
  | none =>
      cases target with
      | none => rfl
      | some t =>
          cases root with
          | none => rfl
          | some r => rfl

/-- A query returns the call chains from the root to the target in which no function occurs twice,
each once. -/
theorem getAllCallPaths_exact (cache : G.CallPathCache) (target root : Option FuncId) :
    (∀ p, p ∈ (getAllCallPaths cache target root).1 ↔
      p ≠ [] ∧ p.head? = root ∧ p.getLast? = target ∧ p.IsChain G.Calls ∧ p.Nodup) ∧
    (getAllCallPaths cache target root).1.Nodup := by
  rw [fst_getAllCallPaths]
  -- A chain has a first and a last function.
  have hempty : ∀ p : List FuncId, p.head? = none ∨ p.getLast? = none → p = [] := by
    rintro p (h | h)
    · exact List.head?_eq_none_iff.mp h
    · exact List.getLast?_eq_none_iff.mp h
  cases target with
  | none =>
      refine ⟨fun p => ⟨fun h => absurd h List.not_mem_nil, ?_⟩, List.nodup_nil⟩
      rintro ⟨hne, -, hlast, -⟩
      exact absurd (hempty p (Or.inr hlast)) hne
  | some t =>
      cases root with
      | none =>
          refine ⟨fun p => ⟨fun h => absurd h List.not_mem_nil, ?_⟩, List.nodup_nil⟩
          rintro ⟨hne, hhead, -⟩
          exact absurd (hempty p (Or.inl hhead)) hne
      | some r =>
          refine ⟨fun p => mem_callPaths.trans ⟨fun h => ⟨?_, h.head, h.last, h.chain, h.nodup⟩, ?_⟩,
            nodup_callPaths t r⟩
          · rintro rfl
            cases h.head
          · rintro ⟨-, hhead, hlast, hchain, hnodup⟩
            exact ⟨hhead, hlast, hchain, hnodup⟩

end CallGraph

end Lace
