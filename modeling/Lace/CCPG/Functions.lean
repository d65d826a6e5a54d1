import Lace.CCPG.Contexts

/-!
# The functions of the graph

A `CCPG` as the construction of the threads leaves it: its functions with their nodes, and the
`CALL` edges between them. A site has at most one `CALL` edge, since every caller of
`createCCPGEdge` for calls asks `hasCallEdge` before.

## Main definitions

* `FunctionGraph`: a graph with its functions;
* `FunctionGraph.callee`: the function that is called at a site;
* `FunctionGraph.CallsAt`: a function calls another one at a site.
-/

namespace Lace

/-- A `CCPG` with its functions. -/
structure FunctionGraph extends CCPG where
  /-- `CCPG::getFunctions`. -/
  functions : Finset FuncId
  /-- `Function::getNodes`, in iteration order. -/
  getNodes : FuncId → List NodeId
  /-- `Function::getFuncNode`. -/
  getFuncNode : FuncId → NodeId
  /-- `CCPGNode::getFunction`. -/
  getFunction : NodeId → Option FuncId
  /-- A function node belongs to its function. -/
  getFunction_funcNode : ∀ f ∈ functions, getFunction (getFuncNode f) = some f
  /-- So do the other nodes: no two functions share a part of their control flow. -/
  getFunction_of_mem : ∀ f ∈ functions, ∀ n ∈ getNodes f, getFunction n = some f
  /-- A `CALL` edge leads to a function node. -/
  call_dst : ∀ e ∈ edges, e.type = .call → ∃ f ∈ functions, e.dst = getFuncNode f
  /-- It starts at a call site. -/
  call_src : ∀ e ∈ edges, e.type = .call → isCallSite e.src = true
  /-- A site has one `CALL` edge at most. -/
  call_unique : ∀ e ∈ edges, ∀ e' ∈ edges, e.type = .call → e'.type = .call → e.src = e'.src →
    e = e'

namespace FunctionGraph

variable (G : FunctionGraph)

/-- The function that the `CALL` edge of a site leads to. -/
def callee (n : NodeId) : Option FuncId := (G.hasCallEdge n).bind G.getFunction

/-- `f` calls `g` at the site `n`. -/
def CallsAt (f : FuncId) (n : NodeId) (g : FuncId) : Prop :=
  n ∈ G.getNodes f ∧ g ∈ G.functions ∧ (⟨n, G.getFuncNode g, .call⟩ : CCPGEdge) ∈ G.edges

variable {G} {f g : FuncId} {m n : NodeId}

theorem hasCallEdge_eq_some :
    G.hasCallEdge n = some m ↔ (⟨n, m, .call⟩ : CCPGEdge) ∈ G.edges := by
  unfold CCPG.hasCallEdge
  constructor
  · intro h
    obtain ⟨⟨src, dst, type⟩, hfind, rfl⟩ := Option.map_eq_some_iff.mp h
    obtain ⟨hmem, rfl⟩ := G.mem_getOutEdges.mp (List.mem_of_find?_eq_some hfind)
    obtain rfl : type = .call := by simpa using List.find?_some hfind
    exact hmem
  · intro h
    cases hfind : (G.getOutEdges n).find? fun e => e.type = .call with
    | none =>
        have hnone := List.find?_eq_none.mp hfind _ (G.mem_getOutEdges.mpr ⟨h, rfl⟩)
        exact absurd (decide_eq_true rfl) hnone
    | some e =>
        -- The edge that is found first is the only one.
        obtain ⟨hmem, hsrc⟩ := G.mem_getOutEdges.mp (List.mem_of_find?_eq_some hfind)
        have htype : e.type = .call := by simpa using List.find?_some hfind
        rw [G.call_unique e hmem _ h htype rfl hsrc]
        rfl

theorem callee_eq_some : G.callee n = some g ↔
    g ∈ G.functions ∧ (⟨n, G.getFuncNode g, .call⟩ : CCPGEdge) ∈ G.edges := by
  rw [callee, Option.bind_eq_some_iff]
  constructor
  · rintro ⟨m, hm, hg⟩
    rw [hasCallEdge_eq_some] at hm
    obtain ⟨f, hf, rfl⟩ : ∃ f ∈ G.functions, m = G.getFuncNode f := G.call_dst _ hm rfl
    obtain rfl : f = g := by simpa [G.getFunction_funcNode f hf] using hg
    exact ⟨hf, hm⟩
  · rintro ⟨hg, he⟩
    exact ⟨_, hasCallEdge_eq_some.mpr he, G.getFunction_funcNode g hg⟩

theorem callsAt_iff : G.CallsAt f n g ↔ n ∈ G.getNodes f ∧ G.callee n = some g := by
  rw [CallsAt, callee_eq_some]

/-- Where a function is called there is a call site. -/
theorem CallsAt.isCallSite (h : G.CallsAt f n g) : G.isCallSite n = true :=
  G.call_src _ h.2.2 rfl

theorem mem_functions_of_callee (h : G.callee n = some g) : g ∈ G.functions :=
  (callee_eq_some.mp h).1

/-! ### Three functions, in tens -/

/-- The first of ten nodes each is the function node: so small programs number their nodes. -/
theorem tens_getFunction : ∀ f ∈ ({0, 1, 2} : Finset FuncId),
    (if (10 : NodeId) * f < 10 then some 0 else if (10 : NodeId) * f < 20 then some 1
      else some 2) = some f := by
  decide

end FunctionGraph

end Lace
