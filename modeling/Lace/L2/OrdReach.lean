import Mathlib.Data.List.Chain
import Lace.L2.Evidence

/-!
# The order witness as a closure

`ordReach` documents its answer as a synchronized chain, or a chain over guarantees with control
flow in between. Control flow reaches only so far, so it does not compose, and the chains are not
walks of a graph.

## Main definitions

* `OrderingEvidence.GuarChain`: the chains of guarantee edges;
* `OrderingEvidence.ExactClosure`: what `ordReach` has to decide, and how its worklist ends.

## Main results

* `OrderingEvidence.exactClosure`: it does so, for all guarantee edges.
-/

namespace Lace

open Library

namespace OrderingEvidence

variable {ev : OrderingEvidence} {a b x : NodeId} {e : NodeId × NodeId}
  {chain : List (NodeId × NodeId)}

/-- A chain of guarantee edges: control flow leads to its first edge, from each edge to the next
one, and from its last edge to the end. -/
structure GuarChain (ev : OrderingEvidence) (a b : NodeId) (chain : List (NodeId × NodeId)) :
    Prop where
  /-- It has an edge. -/
  ne_nil : chain ≠ []
  /-- All its edges are guarantees. -/
  mem : ∀ e ∈ chain, e ∈ ev.guarEdges
  /-- Where it starts. -/
  first : ∀ e ∈ chain.head?, ev.cfReach a e.1 = true
  /-- How its edges follow each other. -/
  linked : chain.IsChain fun e f => ev.cfReach e.2 f.1 = true ∨ e.2 = f.1
  /-- Where it ends. -/
  last : ∀ e ∈ chain.getLast?, ev.cfReach e.2 b = true

/-- What `ordReach` has to decide about two nodes. -/
structure ExactClosure (ev : OrderingEvidence) (a b : NodeId) : Prop where
  /-- It finds the synchronized walks and the chains of guarantees. -/
  ordReach_iff : ev.ordReach a b = true ↔
    ev.staticSyncOrder a b = true ∨ ∃ chain, ev.GuarChain a b chain
  /-- The worklist ends by itself, after at most as many turns as there are guarantee edges; its
  answer is the one of the run with a bound on the turns. -/
  returns : ∃ n ≤ ev.guarEdges.length, (ev.guarProblem a b).Returns n
    (WorklistProblem.enter (ev.guarProblem a b).initial [] []).1
    (WorklistProblem.enter (ev.guarProblem a b).initial [] []).2
    ((ev.guarProblem a b).run (ev.guarEdges.length + 1))

/-! ### Chains -/

/-- The hops that take the edges of a chain one after the other. -/
theorem transGen_of_chain (hmem : ∀ e ∈ chain, e ∈ ev.guarEdges)
    (hlinked : chain.IsChain fun e f => ev.cfReach e.2 f.1 = true ∨ e.2 = f.1)
    (hfirst : ∀ e ∈ chain.head?, ev.cfReach a e.1 = true) (hlast : e ∈ chain.getLast?) :
    Relation.TransGen ev.GuarHop a e.2 := by
  induction chain generalizing a with
  | nil => cases hlast
  | cons f chain ih =>
    -- The first edge is a hop by itself.
    have hhop : ev.GuarHop a f.2 := ⟨f, hmem f List.mem_cons_self, hfirst f rfl, rfl⟩
    -- The hop ends the chain, or the rest follows from its end.
    cases chain with
    | nil =>
      obtain rfl : f = e := Option.some.inj hlast
      exact .single hhop
    | cons g rest =>
      obtain ⟨hlink, hlinked⟩ := List.isChain_cons_cons.mp hlinked
      refine .head hhop (ih (fun x hx => hmem x (List.mem_cons_of_mem _ hx)) hlinked ?_ ?_)
      · -- Where the next edge starts at the end of this one, control flow reaches it at once.
        rintro x ⟨⟩
        exact hlink.elim id fun heq => heq ▸ cfReach_self
      · rwa [List.getLast?_cons_cons] at hlast

/-- Hops take the edges of some chain. -/
theorem exists_chain (h : Relation.TransGen ev.GuarHop a x) :
    ∃ (chain : List (NodeId × NodeId)) (e : NodeId × NodeId),
      (∀ e ∈ chain, e ∈ ev.guarEdges) ∧
      (chain.IsChain fun e f => ev.cfReach e.2 f.1 = true ∨ e.2 = f.1) ∧
      (∀ e ∈ chain.head?, ev.cfReach a e.1 = true) ∧ chain.getLast? = some e ∧ e.2 = x := by
  induction h with
  | single h =>
    obtain ⟨e, he, hreach, rfl⟩ := h
    refine ⟨[e], e, ?_, List.isChain_singleton _, ?_, rfl, rfl⟩
    · intro f hf
      rwa [List.mem_singleton.mp hf]
    · rintro f ⟨⟩
      exact hreach
  | tail _ hhop ih =>
    obtain ⟨chain, e, hmem, hlinked, hfirst, hlast, rfl⟩ := ih
    -- The last hop takes one more guarantee.
    obtain ⟨f, hf, hreach, rfl⟩ := hhop
    refine ⟨chain ++ [f], f, ?_, ?_, ?_, List.getLast?_concat, rfl⟩
    · intro g hg
      obtain hg | hg := List.mem_append.mp hg
      · exact hmem g hg
      · rwa [List.mem_singleton.mp hg]
    · refine hlinked.append (List.isChain_singleton _) ?_
      rintro g hg _ ⟨⟩
      obtain rfl : e = g := Option.some.inj (hlast.symm.trans hg)
      exact Or.inl hreach
    · -- The chain so far is not empty, so it keeps its head.
      obtain ⟨g, rest, rfl⟩ : ∃ g rest, chain = g :: rest :=
        List.exists_cons_of_ne_nil fun hnil => by rw [hnil] at hlast; cases hlast
      exact hfirst

/-- Chains of guarantee edges are sequences of hops. -/
theorem exists_guarChain_iff : (∃ chain, ev.GuarChain a b chain) ↔
    ∃ x, Relation.TransGen ev.GuarHop a x ∧ ev.cfReach x b = true := by
  constructor
  · rintro ⟨chain, h⟩
    obtain ⟨e, he⟩ := Option.isSome_iff_exists.mp (List.getLast?_isSome.mpr h.ne_nil)
    exact ⟨e.2, transGen_of_chain h.mem h.linked h.first he, h.last e he⟩
  · rintro ⟨x, hx, hreach⟩
    obtain ⟨chain, e, hmem, hlinked, hfirst, hlast, rfl⟩ := exists_chain hx
    refine ⟨chain, ?_, hmem, hfirst, hlinked, ?_⟩
    · rintro rfl
      cases hlast
    · intro f hf
      obtain rfl : e = f := Option.some.inj (hlast.symm.trans hf)
      exact hreach

/-! ### The worklist -/

/-- The worklist ends by itself: it enters the targets of the guarantee edges, each once. -/
theorem returns_guarProblem : ∃ n ≤ ev.guarEdges.length, (ev.guarProblem a b).Returns n
    (WorklistProblem.enter (ev.guarProblem a b).initial [] []).1
    (WorklistProblem.enter (ev.guarProblem a b).initial [] []).2
    ((ev.guarProblem a b).run (ev.guarEdges.length + 1)) := by
  -- Whatever is popped, only targets of guarantee edges are entered.
  have htarget : ∀ (p : NodeId × NodeId → Bool), ∀ t ∈ (ev.guarEdges.filter p).map Prod.snd,
      t ∈ (ev.guarEdges.map Prod.snd).toFinset := by
    intro p t ht
    obtain ⟨e, he, rfl⟩ := List.mem_map.mp ht
    exact List.mem_toFinset.mpr (List.mem_map_of_mem (List.mem_of_mem_filter he))
  have hcard : (ev.guarEdges.map Prod.snd).toFinset.card ≤ ev.guarEdges.length :=
    card_toFinset_map_le _ _
  obtain ⟨n, hn, hreturns⟩ := WorklistProblem.run_returns (P := ev.guarProblem a b) _
    (htarget _) (fun _ => htarget _) (Nat.lt_succ_of_le hcard)
  exact ⟨n, hn.trans hcard, hreturns⟩

/-- `ordReach` is the closure it documents, for two different nodes. -/
theorem exactClosure (ev : OrderingEvidence) (a b : NodeId) (hab : a ≠ b) :
    ev.ExactClosure a b where
  ordReach_iff := by
    rw [ordReach_iff, exists_guarChain_iff, or_iff_right hab]
  returns := returns_guarProblem

/-- Two guarantees, in a graph whose control flow joins the end of one to the start of the other. -/
def relayEvidence : OrderingEvidence where
  ccpg := .ofNodes [1, 2, 3, 4] (fun _ => .assignment) fun _ => false
  hb := ⟨[⟨2, 3, .programOrder, ""⟩]⟩
  env := ⟨none, none, false⟩
  guarEdges := [(1, 2), (3, 4), (4, 1), (1, 2)]
  exclExclusive := []
  exclShared := []
  atomicTok := []

/-- The chain over both guarantees is found, and the cycle does no harm. -/
theorem exactClosure_relayEvidence :
    relayEvidence.ordReach 1 4 = true ∧ relayEvidence.ordReach 2 3 = true ∧
      relayEvidence.ExactClosure 1 4 :=
  ⟨by decide, by decide, exactClosure _ 1 4 (by decide)⟩

end OrderingEvidence

end Lace
