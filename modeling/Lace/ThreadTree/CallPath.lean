import Lace.CCPG.Functions
import Lace.Library.Worklist

/-!
# Call paths

`findCallPath`: a breadth-first search for the call sites that lead from one function of a thread
to another. A path is the node of the first function followed by call sites, and the search goes on
from the function of the last node of a path. This is the function that contains the last call site,
not the function that is called there, so that the search never leaves the function it starts from.

## Main definitions

* `FunctionGraph.findCallPath`: the search;
* `FunctionGraph.CallChain`: call sites that lead from one function to another;
* `FunctionGraph.FindsCallPath`: the search finds a chain if there is one.

## Main results

* `findCallPath_of_ne`: the search finds direct callees;
* `findsCallPath_iff`: when it finds a chain if there is one.
-/

namespace Lace

open Library

namespace FunctionGraph

variable (G : FunctionGraph) (functions : List FuncId)

/-- The function of the thread that is called at a node. -/
def calledAt (n : NodeId) : Option FuncId :=
  if G.isCallSite n then (G.callee n).filter (· ∈ functions) else none

/-- The inner loop of `findCallPath` over the nodes of a function: it returns a path, or leaves the
queue and the visited functions. -/
def scanCalls (endFunc : FuncId) (path : List NodeId) :
    List NodeId → List (List NodeId) → List FuncId →
      List NodeId ⊕ List (List NodeId) × List FuncId
  | [], q, visited => .inr (q, visited)
  | n :: nodes, q, visited =>
      match G.calledAt functions n with
      | none => scanCalls endFunc path nodes q visited
      | some f =>
          if f ∈ visited then scanCalls endFunc path nodes q visited
          else if f = endFunc then .inl (path ++ [n])
          else scanCalls endFunc path nodes (q ++ [path ++ [n]]) (f :: visited)

variable {G functions} {s e f : FuncId} {n : NodeId} {path r : List NodeId} {nodes : List NodeId}
  {q q' : List (List NodeId)} {visited visited' : List FuncId}

theorem calledAt_eq_some :
    G.calledAt functions n = some f ↔ f ∈ functions ∧ G.callee n = some f := by
  rw [calledAt]
  constructor
  · intro h
    split_ifs at h
    obtain ⟨hcallee, hmem⟩ := Option.filter_eq_some_iff.mp h
    exact ⟨by simpa using hmem, hcallee⟩
  · rintro ⟨hmem, hcallee⟩
    have hsite : G.isCallSite n = true := G.call_src _ (callee_eq_some.mp hcallee).2 rfl
    rw [if_pos hsite, hcallee]
    simp [hmem]

/-- A path that is queued is paid for by the function that is visited. -/
theorem scanCalls_measure (h : G.scanCalls functions e path nodes q visited = .inr (q', visited')) :
    (functions.toFinset.filter (· ∉ visited')).card + q'.length ≤
      (functions.toFinset.filter (· ∉ visited)).card + q.length := by
  induction nodes generalizing q visited with
  | nil =>
      obtain ⟨rfl, rfl⟩ := Prod.mk.inj (Sum.inr.inj h)
      exact le_rfl
  | cons n nodes ih =>
      unfold scanCalls at h
      cases hcall : G.calledAt functions n with
      | none =>
          rw [hcall] at h
          exact ih h
      | some f =>
          rw [hcall] at h
          dsimp only at h
          split_ifs at h with hvis he
          · exact ih h
          · -- The path is queued and the function is visited, which it was not before.
            have hf : ∀ g ∈ [f], g ∈ functions.toFinset := by
              simpa using (calledAt_eq_some.mp hcall).1
            have hcard := card_unvisited_append_le functions.toFinset (List.nodup_singleton f) hf
              (by simpa using hvis)
            have hle := ih h
            rw [List.length_append, List.length_singleton] at hle
            rw [List.length_singleton, List.singleton_append] at hcard
            omega

variable (G functions)

/-- The outer loop of `findCallPath`: a path is taken off the queue and extended by the call sites
of the function of its last node. -/
def searchCalls (endFunc : FuncId) : List (List NodeId) → List FuncId → List NodeId
  | [], _ => []
  | path :: q, visited =>
      match path.getLast?.bind G.getFunction with
      | none => searchCalls endFunc q visited
      | some lastFunc =>
          match _hscan : G.scanCalls functions endFunc path (G.getNodes lastFunc) q visited with
          | .inl r => r
          | .inr (q', visited') => searchCalls endFunc q' visited'
termination_by q visited => (functions.toFinset.filter (· ∉ visited)).card + q.length
decreasing_by
  · simp
  · have hle := scanCalls_measure _hscan
    rw [List.length_cons]
    omega

/-- `findCallPath`, for the functions of a thread. -/
def findCallPath (startFunc endFunc : FuncId) : List NodeId :=
  if startFunc = endFunc then [G.getFuncNode startFunc]
  else G.searchCalls functions endFunc [[G.getFuncNode startFunc]] [startFunc]

/-! ### The specification -/

/-- The function `e` is reachable from `s` by call edges through functions of the thread. -/
def CallReachable : FuncId → FuncId → Prop :=
  Relation.ReflTransGen fun f g => g ∈ functions ∧ ∃ n, G.CallsAt f n g

/-- Call sites `c₁, …, cₖ` such that `c₁` lies in `s`, each next one lies in the callee of the one
before, and the callee of `cₖ` is `e`. -/
def CallChain : FuncId → List NodeId → FuncId → Prop
  | s, [], e => s = e
  | s, c :: cs, e => ∃ f, G.CallsAt s c f ∧ CallChain f cs e

/-- `findCallPath` is complete and correct for two functions. -/
structure FindsCallPath (s e : FuncId) : Prop where
  /-- It finds a path exactly if the function is reachable. -/
  ne_nil_iff : G.findCallPath functions s e ≠ [] ↔ G.CallReachable functions s e
  /-- What it finds is a chain of calls. -/
  chain : s ≠ e → G.findCallPath functions s e ≠ [] →
    ∃ cs, G.findCallPath functions s e = G.getFuncNode s :: cs ∧ G.CallChain s cs e

variable {G functions}

/-! ### What the search finds -/

/-- A node adds nothing if the function that is called there is visited, or none is. -/
theorem scanCalls_skip (h : ∀ f, G.calledAt functions n = some f → f ∈ visited) :
    G.scanCalls functions e path (n :: nodes) q visited =
      G.scanCalls functions e path nodes q visited := by
  rw [scanCalls]
  cases hcall : G.calledAt functions n with
  | none => rfl
  | some f => exact if_pos (h f hcall)

theorem scanCalls_of_visited
    (hvis : ∀ n ∈ nodes, ∀ f, G.calledAt functions n = some f → f ∈ visited) :
    G.scanCalls functions e path nodes q visited = .inr (q, visited) := by
  induction nodes with
  | nil => rfl
  | cons n nodes ih =>
      rw [scanCalls_skip (hvis n List.mem_cons_self)]
      exact ih fun m hm => hvis m (List.mem_cons_of_mem n hm)

/-- The nodes of a function are searched for one that calls the last function: either there is one,
or all functions that are called are visited now, and the new paths end in these nodes. -/
theorem scanCalls_cases (he : e ∉ visited) :
    (∃ n ∈ nodes, G.calledAt functions n = some e ∧
      G.scanCalls functions e path nodes q visited = .inl (path ++ [n])) ∨
    ((∀ n ∈ nodes, G.calledAt functions n ≠ some e) ∧ ∃ new visited',
      G.scanCalls functions e path nodes q visited = .inr (q ++ new, visited') ∧
      visited ⊆ visited' ∧
      (∀ n ∈ nodes, ∀ f, G.calledAt functions n = some f → f ∈ visited') ∧
      ∀ p ∈ new, ∃ n ∈ nodes, p = path ++ [n]) := by
  induction nodes generalizing q visited with
  | nil => exact Or.inr ⟨by simp, [], visited, by simp [scanCalls], by simp⟩
  | cons n nodes ih =>
      by_cases hskip : ∀ f, G.calledAt functions n = some f → f ∈ visited
      · -- The node is passed over; it does not call `e`, which is not visited.
        rw [scanCalls_skip hskip]
        rcases ih he with ⟨m, hm, hme, hr⟩ | ⟨hno, new, visited', hr, hsub, hvis, hnew⟩
        · exact Or.inl ⟨m, List.mem_cons_of_mem n hm, hme, hr⟩
        · refine Or.inr ⟨?_, new, visited', hr, hsub, ?_, fun p hp => ?_⟩
          · exact List.forall_mem_cons.mpr ⟨fun h => he (hskip e h), hno⟩
          · exact List.forall_mem_cons.mpr ⟨fun f h => hsub (hskip f h), hvis⟩
          · obtain ⟨m, hm, hpm⟩ := hnew p hp
            exact ⟨m, List.mem_cons_of_mem n hm, hpm⟩
      · simp only [not_forall] at hskip
        obtain ⟨f, hcall, hf⟩ := hskip
        rw [scanCalls, hcall]
        dsimp only
        rw [if_neg hf]
        by_cases hne : f = e
        · subst hne
          exact Or.inl ⟨n, List.mem_cons_self, hcall, if_pos rfl⟩
        · rw [if_neg hne]
          -- The path over this node is queued, and `f` is visited now.
          have he' : e ∉ f :: visited := by simp [he, Ne.symm hne]
          rcases ih he' with ⟨m, hm, hme, hr⟩ | ⟨hno, new, visited', hr, hsub, hvis, hnew⟩
          · exact Or.inl ⟨m, List.mem_cons_of_mem n hm, hme, hr⟩
          · refine Or.inr ⟨?_, (path ++ [n]) :: new, visited', by simp [hr],
              List.subset_of_cons_subset hsub, ?_, fun p hp => ?_⟩
            · exact List.forall_mem_cons.mpr ⟨by simp [hcall, hne], hno⟩
            · exact List.forall_mem_cons.mpr ⟨by simp [hcall, hsub List.mem_cons_self], hvis⟩
            · rcases List.mem_cons.mp hp with rfl | hp
              · exact ⟨n, List.mem_cons_self, rfl⟩
              · obtain ⟨m, hm, hpm⟩ := hnew p hp
                exact ⟨m, List.mem_cons_of_mem n hm, hpm⟩

/-- The turn for a path whose last node belongs to `s`. -/
theorem searchCalls_cons (hpath : path.getLast?.bind G.getFunction = some s) :
    G.searchCalls functions e (path :: q) visited =
      match G.scanCalls functions e path (G.getNodes s) q visited with
      | .inl r => r
      | .inr (q', visited') => G.searchCalls functions e q' visited' := by
  rw [searchCalls, hpath]
  dsimp only
  split <;> rename_i heq <;> rw [heq]

/-- Paths that end in a function whose callees are visited lead nowhere. -/
theorem searchCalls_eq_nil (hq : ∀ p ∈ q, p.getLast?.bind G.getFunction = some s)
    (hvis : ∀ n ∈ G.getNodes s, ∀ f, G.calledAt functions n = some f → f ∈ visited) :
    G.searchCalls functions e q visited = [] := by
  induction q with
  | nil => rw [searchCalls]
  | cons path q ih =>
      rw [searchCalls_cons (hq path List.mem_cons_self), scanCalls_of_visited hvis]
      exact ih fun p hp => hq p (List.mem_cons_of_mem path hp)

/-- The search finds direct callees, and no other functions. -/
theorem findCallPath_of_ne (hs : s ∈ G.functions) (he : e ∈ functions) (hne : s ≠ e) :
    (∃ n, G.CallsAt s n e ∧ G.findCallPath functions s e = [G.getFuncNode s, n]) ∨
    (∀ n, ¬G.CallsAt s n e) ∧ G.findCallPath functions s e = [] := by
  have hlast : ([G.getFuncNode s] : List NodeId).getLast?.bind G.getFunction = some s :=
    G.getFunction_funcNode s hs
  rw [findCallPath, if_neg hne, searchCalls_cons hlast]
  have hunvis : e ∉ [s] := by simpa using hne.symm
  rcases scanCalls_cases hunvis with ⟨n, hn, hcall, hr⟩ | ⟨hno, new, visited', hr, -, hvis, hnew⟩
  · rw [hr]
    exact Or.inl ⟨n, callsAt_iff.mpr ⟨hn, (calledAt_eq_some.mp hcall).2⟩, rfl⟩
  · rw [hr]
    refine Or.inr ⟨fun n hcall => ?_, searchCalls_eq_nil (fun p hp => ?_) hvis⟩
    · obtain ⟨hn, hcallee⟩ := callsAt_iff.mp hcall
      exact hno n hn (calledAt_eq_some.mpr ⟨he, hcallee⟩)
    · -- The last call site of a new path lies in the first function again.
      obtain ⟨n, hn, rfl⟩ := hnew p (by simpa using hp)
      simpa using G.getFunction_of_mem s hs n hn

/-- `findCallPath` finds a call path if there is one, and a chain of calls, exactly if the function
is the first one, is called there directly, or is not reachable. -/
theorem findsCallPath_iff (hs : s ∈ G.functions) (he : e ∈ functions) :
    G.FindsCallPath functions s e ↔
      s = e ∨ (∃ n, G.CallsAt s n e) ∨ ¬G.CallReachable functions s e := by
  by_cases hne : s = e
  · -- A function is reachable from itself, and its own node is returned.
    subst hne
    refine iff_of_true ⟨?_, fun h => absurd rfl h⟩ (Or.inl rfl)
    refine iff_of_true ?_ Relation.ReflTransGen.refl
    rw [findCallPath, if_pos rfl]
    exact List.cons_ne_nil _ _
  rw [or_iff_right hne]
  rcases findCallPath_of_ne hs he hne with ⟨n, hcall, hfind⟩ | ⟨hno, hfind⟩
  · refine iff_of_true ⟨?_, fun _ _ => ⟨[n], hfind, e, hcall, rfl⟩⟩ (Or.inl ⟨n, hcall⟩)
    rw [hfind]
    exact iff_of_true (List.cons_ne_nil _ _) (Relation.ReflTransGen.single ⟨he, n, hcall⟩)
  · -- Nothing is found, which is right only if there is nothing to find.
    constructor
    · intro h
      refine Or.inr fun hreach => ?_
      exact h.ne_nil_iff.mpr hreach hfind
    · rintro (⟨n, hcall⟩ | hreach)
      · exact absurd hcall (hno n)
      · exact ⟨iff_of_false (not_not.mpr hfind) hreach, fun _ h => absurd hfind h⟩

/-! ### A call that is two functions away -/

/-- `worker` calls `step` at a node, which calls `log` at a node. -/
def workerStepLog : FunctionGraph where
  nodes := [0, 1, 10, 11, 20]
  type n := if n = 1 ∨ n = 11 then .otherCall else .dummy
  isCallSite n := n = 1 ∨ n = 11
  edges := [⟨0, 1, .order⟩, ⟨1, 10, .call⟩, ⟨10, 11, .order⟩, ⟨11, 20, .call⟩]
  mem_nodes := by decide
  functions := {0, 1, 2}
  getNodes f := if f = 0 then [0, 1] else if f = 1 then [10, 11] else if f = 2 then [20] else []
  getFuncNode f := 10 * f
  getFunction n := if n < 10 then some 0 else if n < 20 then some 1 else some 2
  getFunction_funcNode := tens_getFunction
  getFunction_of_mem := by decide
  call_dst := by decide
  call_src := by decide
  call_unique := by decide

/-- A function that is called at a node of the first one is found. -/
theorem workerStepLog_findsCallPath_step : workerStepLog.FindsCallPath [0, 1, 2] 0 1 :=
  (findsCallPath_iff (by decide) (by decide)).mpr
    (Or.inr (Or.inl ⟨1, by decide, by decide, by decide⟩))

/-- A function that is called by that one is not, though it is reachable. -/
theorem workerStepLog_not_findsCallPath_log :
    workerStepLog.CallReachable [0, 1, 2] 0 2 ∧
      workerStepLog.findCallPath [0, 1, 2] 0 2 = [] ∧
      ¬workerStepLog.FindsCallPath [0, 1, 2] 0 2 := by
  have hstep : workerStepLog.CallsAt 0 1 1 := by unfold CallsAt; decide
  have hlog : workerStepLog.CallsAt 1 11 2 := by unfold CallsAt; decide
  have hreach : workerStepLog.CallReachable [0, 1, 2] 0 2 :=
    (Relation.ReflTransGen.single ⟨by decide, 1, hstep⟩).tail ⟨by decide, 11, hlog⟩
  have hfind : workerStepLog.findCallPath [0, 1, 2] 0 2 = [] := by
    rcases findCallPath_of_ne (by decide : (0 : FuncId) ∈ workerStepLog.functions)
      (by decide : (2 : FuncId) ∈ [0, 1, 2]) (by decide) with ⟨n, ⟨hn, -, he⟩, -⟩ | ⟨-, hfind⟩
    · revert n
      decide
    · exact hfind
  exact ⟨hreach, hfind, fun h => h.ne_nil_iff.mpr hreach hfind⟩

end FunctionGraph

end Lace
