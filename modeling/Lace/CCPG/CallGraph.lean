import Lace.CCPG.Functions
import Lace.Library.Flood

/-!
# Callers, and the functions that may fork

The `CALL` edges of a graph, read from the callee to its callers. `labelForkPotential` marks the
functions with a `FORK` node and passes the mark on to callers, once all functions are built.

## Main definitions

* `CallGraph`: a graph in which every call comes from one of its functions;
* `CallGraph.getCallers`: the callers of a function;
* `CallGraph.labelForkPotential`: the functions that are marked.

## Main results

* `mem_getCallers`: the callers are the functions that call;
* `mem_labelForkPotential`: the marked functions are those that may reach a `FORK` node by calls.
-/

namespace Lace

open Library

/-- A `CCPG` with its functions, when all of them are built. -/
structure CallGraph extends FunctionGraph where
  /-- `functions`, in iteration order. -/
  functionOrder : List FuncId
  /-- The order has all functions. -/
  mem_functionOrder : ∀ f, f ∈ functionOrder ↔ f ∈ functions
  /-- A `CALL` edge starts at a node of a function. -/
  call_function : ∀ e ∈ edges, e.type = .call → ∃ f ∈ functions, getFunction e.src = some f

namespace CallGraph

variable (G : CallGraph)

/-- A node of `f` calls `g`. -/
def Calls (f g : FuncId) : Prop :=
  ∃ n, G.getFunction n = some f ∧ (⟨n, G.getFuncNode g, .call⟩ : CCPGEdge) ∈ G.edges

/-- `Function::getCallers`: the functions with a site that calls this one, each once. -/
def getCallers (f : FuncId) : List FuncId :=
  ((G.edges.filter fun e => e.dst = G.getFuncNode f && e.type = .call).filterMap fun e =>
    G.getFunction e.src).dedup

/-- The function has a node of type `FORK`. -/
def hasFork (f : FuncId) : Bool := 0 < ((G.getNodes f).filter fun n => G.type n = .fork).length

variable {G} {f g : FuncId}

/-- The callers of a function are the functions that call it. -/
@[simp]
theorem mem_getCallers : f ∈ G.getCallers g ↔ G.Calls f g := by
  simp only [getCallers, Calls, List.mem_dedup, List.mem_filterMap, List.mem_filter,
    Bool.and_eq_true, decide_eq_true_eq]
  constructor
  · rintro ⟨⟨src, dst, type⟩, ⟨he, rfl, rfl⟩, hf⟩
    exact ⟨src, hf, he⟩
  · rintro ⟨n, hf, he⟩
    exact ⟨_, ⟨he, rfl, rfl⟩, hf⟩

theorem nodup_getCallers (g : FuncId) : (G.getCallers g).Nodup := List.nodup_dedup _

/-- A function that calls is a function of the graph. -/
theorem Calls.mem_functions (h : G.Calls f g) : f ∈ G.functions := by
  obtain ⟨n, hf, he⟩ := h
  obtain ⟨f', hf', heq⟩ := G.call_function _ he rfl
  obtain rfl : f = f' := Option.some.inj (hf.symm.trans heq)
  exact hf'

theorem getCallers_subset (g : FuncId) : ∀ f ∈ G.getCallers g, f ∈ G.functions :=
  fun _ hf => (mem_getCallers.mp hf).mem_functions

theorem hasFork_iff : G.hasFork f = true ↔ ∃ n ∈ G.getNodes f, G.type n = .fork := by
  simp [hasFork, List.length_pos_iff_exists_mem]

variable (G)

/-- `labelForkPotential`: the functions that it marks. -/
def labelForkPotential : List FuncId :=
  markAll G.functions G.getCallers getCallers_subset (G.functionOrder.filter fun f => G.hasFork f) []

/-- A function is marked if it reaches one with a `FORK` node by calls. -/
theorem mem_labelForkPotential (f : FuncId) : f ∈ G.labelForkPotential ↔
    ∃ g ∈ G.functions, (∃ n ∈ G.getNodes g, G.type n = .fork) ∧
      Relation.ReflTransGen G.Calls f g := by
  have hcalls : ∀ g, Relation.ReflTransGen (fun m n => n ∈ G.getCallers m) g f ↔
      Relation.ReflTransGen G.Calls f g := by
    intro g
    rw [← Relation.reflTransGen_swap]
    simp only [mem_getCallers]
  simp only [labelForkPotential, mem_markAll, List.mem_filter, hasFork_iff, hcalls,
    G.mem_functionOrder, and_assoc]

/-! ### A call of a function that forks -/

/-- `main` calls `start` at node 1, which forks at node 11. Nothing calls `log`. -/
def mainStartLog : CallGraph where
  nodes := [0, 1, 2, 10, 11, 20]
  type n := if n = 1 then .otherCall else if n = 11 then .fork else .dummy
  isCallSite n := n = 1 ∨ n = 11
  edges := [⟨0, 1, .order⟩, ⟨1, 10, .call⟩, ⟨1, 2, .order⟩, ⟨10, 11, .order⟩]
  mem_nodes := by decide
  functions := {0, 1, 2}
  getNodes f :=
    if f = 0 then [0, 1, 2] else if f = 1 then [10, 11] else if f = 2 then [20] else []
  getFuncNode f := 10 * f
  getFunction n := if n < 10 then some 0 else if n < 20 then some 1 else some 2
  getFunction_funcNode := FunctionGraph.tens_getFunction
  getFunction_of_mem := by decide
  call_dst := by decide
  call_src := by decide
  call_unique := by decide
  functionOrder := [0, 1, 2]
  mem_functionOrder := by simp
  call_function := by decide

example : mainStartLog.getCallers 1 = [0] ∧ mainStartLog.hasFork 1 = true ∧
    mainStartLog.hasFork 0 = false := by
  decide

end CallGraph

end Lace
