import Lace.Phasar.EntryTiering
import Mathlib.Data.List.AList
import Mathlib.Data.List.ReduceOption

/-!
# Bounded search in the direct call graph

`reachesFunctionWithin` takes the call graph as a map from functions to the functions they call. It
looks for a chain of direct calls of a bounded length, with a set of the functions it has seen.

## Main definitions

* `DirectCallGraph`: the map;
* `DirectCallGraph.reachesFunctionWithin`, `Module.buildDirectCallGraph`: the functions of the
  source.

## Main results

* `DirectCallGraph.reachesFunctionWithin_exact`: the search finds exactly the chains within the
  bound;
* `Module.reachesFunctionWithin_eq`: the search of the entry tiering is the search in the graph that
  `buildDirectCallGraph` builds.
-/

namespace Lace

open Library

/-- The map from a function to its callees. A callee that is a null pointer is `none`. -/
abbrev DirectCallGraph (F : Type) := AList fun _ : F => List (Option F)

namespace DirectCallGraph

variable {F : Type} [DecidableEq F] (cg : DirectCallGraph F)

/-- The callees that the search looks at: a function without an entry has none, and null pointers
are skipped. -/
def callees (cur : F) : List F :=
  match cg.lookup cur with
  | none => []
  | some outs => outs.reduceOption

/-- `a` calls `b` directly. -/
def Calls (a b : F) : Prop := b ∈ cg.callees a

/-- The loop of `reachesFunctionWithin`. -/
def reachProblem (dst : F) (maxDepth : ℤ) : SearchProblem F where
  next := cg.callees
  goal next := next = dst
  keep _ := true
  cap := some maxDepth.toNat

/-- The callees of all entries. -/
def allCallees : List F := cg.entries.flatMap fun e => e.2.reduceOption

/-- `reachesFunctionWithin`. Every function is queued once at most, so the fuel never runs out. -/
def reachesFunctionWithin (src dst : Option F) (maxDepth : ℤ) : Bool :=
  match src, dst with
  | some src, some dst =>
    -- A cycle back to the start does not count.
    if src = dst || maxDepth ≤ 0 then false
    else (cg.reachProblem dst maxDepth).searchFrom (cg.allCallees.length + 2) src
  | _, _ => false

variable {cg} {a b src dst : F} {maxDepth : ℤ}

theorem calls_iff : cg.Calls a b ↔ ∃ outs, cg.lookup a = some outs ∧ some b ∈ outs := by
  unfold Calls callees
  cases hlookup : cg.lookup a with
  | none => simp
  | some outs => simp [List.reduceOption_mem_iff]

theorem Calls.mem_allCallees (h : cg.Calls a b) : b ∈ cg.allCallees.toFinset := by
  obtain ⟨outs, hlookup, hmem⟩ := calls_iff.mp h
  have hentry : Sigma.mk a outs ∈ cg.entries := AList.mem_lookup_iff.mp hlookup
  exact List.mem_toFinset.mpr
    (List.mem_flatMap.mpr ⟨_, hentry, List.reduceOption_mem_iff.mpr hmem⟩)

/-- The loop finds a callee of a function that is met before the bound. -/
theorem searchFrom_iff :
    (cg.reachProblem dst maxDepth).searchFrom (cg.allCallees.length + 2) src = true ↔
      ∃ n < maxDepth.toNat, ∃ cur, Steps cg.Calls src n cur ∧ cg.Calls cur dst := by
  have hcard : cg.allCallees.toFinset.card + 1 < cg.allCallees.length + 2 := by
    have hle := List.toFinset_card_le cg.allCallees
    omega
  exact SearchProblem.search_target_iff _ (fun s t => Calls.mem_allCallees) hcard

/-- The search finds the other functions that a chain within the bound leads to. -/
theorem reachesFunctionWithin_iff :
    cg.reachesFunctionWithin (some src) (some dst) maxDepth = true ↔ src ≠ dst ∧
      ∃ n < maxDepth.toNat, ∃ cur, Steps cg.Calls src n cur ∧ cg.Calls cur dst := by
  simp only [reachesFunctionWithin]
  split_ifs with hguard
  · constructor
    · exact False.elim
    · -- Without a bound above zero there is no room for a call.
      rintro ⟨hne, n, hn, -⟩
      have hdepth : ¬maxDepth ≤ 0 := by omega
      simp [hne, hdepth] at hguard
  · rw [searchFrom_iff]
    simp only [Bool.or_eq_true, decide_eq_true_eq, not_or] at hguard
    exact (and_iff_right hguard.1).symm

/-- The search answers whether a chain of at least one call and at most `maxDepth` calls leads from
one function to the other. -/
theorem reachesFunctionWithin_exact (cg : DirectCallGraph F) {src dst : F} (hne : src ≠ dst)
    (maxDepth : ℤ) :
    cg.reachesFunctionWithin (some src) (some dst) maxDepth = true ↔
      ∃ n : ℕ, 1 ≤ n ∧ (n : ℤ) ≤ maxDepth ∧ Steps cg.Calls src n dst := by
  rw [reachesFunctionWithin_iff, and_iff_right hne, exists_steps_last_iff hne]
  constructor
  · rintro ⟨n, hn, hsteps⟩
    -- A chain to another function has a call.
    have hpos : n ≠ 0 := by
      rintro rfl
      exact hne hsteps.eq_of_zero
    exact ⟨n, by omega, by omega, hsteps⟩
  · rintro ⟨n, -, hn, hsteps⟩
    exact ⟨n, by omega, hsteps⟩

/-- A graph with a short and a long chain from `0` to `4` that share `3`, and a cycle. -/
def sharedChains : DirectCallGraph ℕ :=
  [⟨0, [none, some 1, some 3]⟩, ⟨1, [some 2]⟩, ⟨2, [some 3, some 0]⟩, ⟨3, [some 4]⟩].toAList

/-- There is a chain of at most two calls, but none of a single call. -/
theorem sharedChains_within_two :
    (∃ n : ℕ, 1 ≤ n ∧ (n : ℤ) ≤ 2 ∧ Steps sharedChains.Calls 0 n 4) ∧
      ¬∃ n : ℕ, 1 ≤ n ∧ (n : ℤ) ≤ 1 ∧ Steps sharedChains.Calls 0 n 4 := by
  have hne : 0 ≠ 4 := by decide
  constructor
  · exact (reachesFunctionWithin_exact sharedChains hne 2).mp (by decide)
  · exact mt (reachesFunctionWithin_exact sharedChains hne 1).mpr (by decide)

end DirectCallGraph

/-! ### The graph of a module -/

namespace Module

variable (M : Module)

/-- The value of `buildDirectCallGraph` for a function with a definition. -/
def callVector (name : String) : Option (List (Option String)) :=
  (M.definition name).map fun instructions => (instructions.filterMap M.directCallee).map some

/-- One round of the loop of `buildDirectCallGraph`. -/
def addCallVector (g : DirectCallGraph String) (f : Function) : DirectCallGraph String :=
  match M.callVector f.name with
  | none => g
  | some outs => g.insert f.name outs

/-- `buildDirectCallGraph`: the direct calls of all functions, those of one name merged. -/
def buildDirectCallGraph : DirectCallGraph String := M.functions.foldl M.addCallVector ∅

variable {M}

/-- What the graph maps a function to after some functions. -/
theorem lookup_foldl_addCallVector (fs : List Function) (name : String) :
    (fs.foldl M.addCallVector ∅).lookup name =
      if name ∈ fs.map Function.name then M.callVector name else none := by
  induction fs using List.reverseRecOn with
  | nil => rfl
  | append_singleton fs f ih =>
    rw [List.foldl_append, List.foldl_cons, List.foldl_nil, addCallVector]
    by_cases hname : name = f.name
    · -- The entry is the same one, if the name occurs again.
      subst hname
      cases hvector : M.callVector f.name with
      | none => simp [ih, hvector]
      | some outs => simp [AList.lookup_insert]
    · cases hvector : M.callVector f.name with
      | none => simp [ih, hname]
      | some outs => simp [AList.lookup_insert_ne hname, ih, hname]

theorem lookup_buildDirectCallGraph (name : String) :
    M.buildDirectCallGraph.lookup name = M.callVector name := by
  rw [buildDirectCallGraph, lookup_foldl_addCallVector]
  split_ifs with hmem
  · rfl
  · -- A function with a definition is one of the module.
    cases hdef : M.definition name with
    | none => simp [callVector, hdef]
    | some instructions =>
      have hdefined : (M.definition name).isSome := by simp [hdef]
      exact absurd (mem_names_of_isSome (getFunction_isSome hdefined)) hmem

/-- The calls in the graph are the direct calls of the module. -/
theorem calls_buildDirectCallGraph : M.buildDirectCallGraph.Calls = M.Calls := by
  ext a b
  rw [DirectCallGraph.calls_iff, lookup_buildDirectCallGraph]
  cases hdef : M.definition a <;> simp [callVector, Calls, directCalls, hdef]

/-- The search of the tiering is the search in the graph that is built. -/
theorem reachesFunctionWithin_eq (src dst : String) (maxDepth : ℕ) :
    M.reachesFunctionWithin src dst maxDepth =
      M.buildDirectCallGraph.reachesFunctionWithin ((M.getFunction src).map Function.name)
        ((M.getFunction dst).map Function.name) maxDepth := by
  cases hsrc : M.getFunction src with
  | none => simp [reachesFunctionWithin, DirectCallGraph.reachesFunctionWithin, hsrc]
  | some f =>
    cases hdst : M.getFunction dst with
    | none => simp [reachesFunctionWithin, DirectCallGraph.reachesFunctionWithin, hdst]
    | some g =>
      rw [Bool.eq_iff_iff, reachesFunctionWithin_iff, Option.map_some, Option.map_some,
        name_of_getFunction hsrc, name_of_getFunction hdst,
        DirectCallGraph.reachesFunctionWithin_iff, calls_buildDirectCallGraph]
      rfl

end Module

end Lace
