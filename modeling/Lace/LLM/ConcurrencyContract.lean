import Lace.L2.Evidence

/-!
# The contract of a thread

`ConcurrencyContract` with all that the contract tools write: the clauses over surface objects, the
requirements and guarantees over nodes, and the objects without an obligation. The composition and
the checker read parts of it.

## Main definitions

* `ConcurrencyContract`: the contract;
* `ContractValid`: what the tools promise about its entries;
* `ConcurrencyContract.NodeReq.checked`: a requirement as the checker reads it.

## Main results

* `ContractValid.checked`: the checker knows the form of every requirement of a valid contract.
-/

namespace Lace

/-- The form with a name. -/
def ReqForm.ofName : String → Option ReqForm
  | "MustPrecede" => some .mustPrecede
  | "MustBeAtomic" => some .mustBeAtomic
  | "MustBeMediated" => some .mustBeMediated
  | _ => none

namespace LLM

namespace ConcurrencyContract

/-- `OrderReq`: a local obligation. -/
structure OrderReq where
  /-- `relation`. -/
  relation : String
  /-- `detail`. -/
  detail : String
  /-- `provenance`. -/
  provenance : String
  deriving DecidableEq, Repr

/-- `SyncProv`: a synchronization effect, with the same fields. -/
abbrev SyncProv := OrderReq

/-- `OrderClause`: what a thread assumes and guarantees about a resource. -/
structure OrderClause where
  /-- `resource`. -/
  resource : String
  /-- `objectId`: the first of `objectIds`, -1 if there is none. -/
  objectId : ℤ := -1
  /-- `objectIds`: the surface objects that the clause covers. -/
  objectIds : List ℤ
  /-- `sites`. -/
  sites : List String
  /-- `assume`. -/
  assume : List OrderReq
  /-- `guarantee`. -/
  guarantee : List SyncProv
  /-- `noOrderNeeded`. -/
  noOrderNeeded : Bool := false
  /-- `noOrderReason`. -/
  noOrderReason : String := ""
  deriving DecidableEq, Repr

/-- `NodeReq`. -/
structure NodeReq where
  /-- `form`. -/
  form : String
  /-- The first operand, or the sequence of an atomic region. -/
  a : List NodeId
  /-- The second operand. -/
  b : List NodeId
  /-- The surface object of the requirement, -1 if none. -/
  objectId : ℤ
  /-- `note`. -/
  note : String
  deriving DecidableEq, Repr

/-- `NodeGuar`. -/
structure NodeGuar where
  /-- `form`. -/
  form : String
  /-- The first operand, or the nodes that the token coordinates. -/
  a : List NodeId
  /-- The second operand of `Order` and `Wait`. -/
  b : List NodeId
  /-- `token`. -/
  token : String
  /-- `mode`. -/
  mode : String
  /-- The surface object of the guarantee, -1 if none. -/
  objectId : ℤ
  /-- `note`. -/
  note : String
  deriving DecidableEq, Repr

/-- The relations of an `assume`. -/
def assumeRelations : List String :=
  ["ORDER", "CONFLICT_MEDIATED", "REGION_ISOLATED", "STABLE_DURING", "PROGRESS_ENABLED"]

/-- The relations of a `guarantee`. -/
def guaranteeRelations : List String := ["ORDER", "EXCLUDE", "LINEARIZE", "WAIT"]

/-- The forms of a requirement over nodes. -/
def requirementForms : List String := ["MustPrecede", "MustBeAtomic", "MustBeMediated"]

/-- The forms of a guarantee over nodes. -/
def guaranteeForms : List String := ["Order", "Exclude", "AtomicOp", "Wait"]

end ConcurrencyContract

open LLM.ConcurrencyContract

/-- `ConcurrencyContract`: the fields that the tools write. -/
structure ConcurrencyContract where
  /-- `threadId`. -/
  threadId : Tid
  /-- `entryPointFunctionId`. -/
  entryPointFunctionId : NodeId
  /-- `role`. -/
  role : String := ""
  /-- `summary`. -/
  summary : String := ""
  /-- `clauses`. -/
  clauses : List OrderClause := []
  /-- `ordering`. -/
  ordering : List String := []
  /-- `nodeReqs`. -/
  nodeReqs : List ConcurrencyContract.NodeReq := []
  /-- `nodeGuars`. -/
  nodeGuars : List ConcurrencyContract.NodeGuar := []
  /-- `noObligationObjs`. -/
  noObligationObjs : List ℤ := []
  deriving DecidableEq, Repr

namespace ConcurrencyContract

variable (c : ConcurrencyContract)

/-- `addClause`. -/
def addClause (clause : OrderClause) : ConcurrencyContract :=
  { c with clauses := c.clauses ++ [clause] }

/-- `addOrdering`: an ordering that the thread relies on is noted. -/
def addOrdering (o : String) : ConcurrencyContract :=
  { c with ordering := c.ordering ++ [o] }

/-- `addNodeReq`: a requirement is added behind the others. -/
def addNodeReq (r : NodeReq) : ConcurrencyContract :=
  { c with nodeReqs := c.nodeReqs ++ [r] }

/-- `addNodeGuar`: a guarantee is added behind the others. -/
def addNodeGuar (g : NodeGuar) : ConcurrencyContract :=
  { c with nodeGuars := c.nodeGuars ++ [g] }

/-- `addNoObligation`: negative ids are ignored. -/
def addNoObligation (oid : ℤ) : ConcurrencyContract :=
  if 0 ≤ oid then { c with noObligationObjs := c.noObligationObjs ++ [oid] } else c

end ConcurrencyContract

/-! ### Valid entries -/

/-- The object of a node-anchored entry is one of the seeded ones, if it has one. -/
def Anchored (seeded : List ℤ) (objectId : ℤ) : Prop := objectId = -1 ∨ objectId ∈ seeded

/-- What the tools promise about a clause. -/
structure ClauseValid (seeded : List ℤ) (cl : OrderClause) : Prop where
  /-- Its obligations are in the vocabulary. -/
  assume : ∀ r ∈ cl.assume, r.relation ∈ assumeRelations
  /-- Its effects are in the vocabulary. -/
  guarantee : ∀ g ∈ cl.guarantee, g.relation ∈ guaranteeRelations
  /-- Its anchor is the first of its objects. -/
  first : cl.objectIds.head? = some cl.objectId
  /-- Its objects are seeded. -/
  seeded : ∀ id ∈ cl.objectIds, id ∈ seeded

/-- What the tools promise about a requirement over nodes. -/
structure ReqValid (G : CCPG) (seeded : List ℤ) (r : ConcurrencyContract.NodeReq) : Prop where
  /-- Its form is in the vocabulary. -/
  form : r.form ∈ requirementForms
  /-- Its nodes are in the graph. -/
  nodes : ∀ n ∈ r.a ++ r.b, n ∈ G.nodes
  /-- It has a first operand. -/
  first : r.a ≠ []
  /-- It has a second operand, unless its form needs none. -/
  second : r.form ≠ "MustBeAtomic" → r.b ≠ []
  /-- Its object is seeded. -/
  object : Anchored seeded r.objectId

/-- What the tools promise about a guarantee over nodes. -/
structure GuarValid (G : CCPG) (seeded : List ℤ) (g : ConcurrencyContract.NodeGuar) : Prop where
  /-- Its form is in the vocabulary. -/
  form : g.form ∈ guaranteeForms
  /-- Its nodes are in the graph. -/
  nodes : ∀ n ∈ g.a ++ g.b, n ∈ G.nodes
  /-- It has a first operand. -/
  first : g.a ≠ []
  /-- It has a second operand where its form needs one. -/
  second : g.form = "Order" ∨ g.form = "Wait" → g.b ≠ []
  /-- It has a token where its form needs one. -/
  token : g.form = "Exclude" ∨ g.form = "AtomicOp" → g.token ≠ ""
  /-- Its object is seeded. -/
  object : Anchored seeded g.objectId

/-- What the tools promise about a contract. -/
structure ContractValid (G : CCPG) (seeded : List ℤ) (c : ConcurrencyContract) : Prop where
  /-- Its clauses are valid. -/
  clauses : ∀ cl ∈ c.clauses, ClauseValid seeded cl
  /-- Its requirements are valid. -/
  nodeReqs : ∀ r ∈ c.nodeReqs, ReqValid G seeded r
  /-- Its guarantees are valid. -/
  nodeGuars : ∀ g ∈ c.nodeGuars, GuarValid G seeded g
  /-- Its objects without an obligation are seeded. -/
  noObligationObjs : ∀ id ∈ c.noObligationObjs, id ∈ seeded

instance (seeded : List ℤ) (objectId : ℤ) : Decidable (Anchored seeded objectId) :=
  inferInstanceAs (Decidable (_ ∨ _))

variable {G : CCPG} {seeded : List ℤ} {c : ConcurrencyContract}

namespace ContractValid

/-! ### Adding an entry -/

/-- A new clause keeps the contract valid exactly if it is valid. -/
theorem addClause_iff {cl : OrderClause} (hvalid : ContractValid G seeded c) :
    ContractValid G seeded (c.addClause cl) ↔ ClauseValid seeded cl := by
  constructor
  · intro hvalid'
    exact hvalid'.clauses cl (List.mem_append_right _ (List.mem_singleton_self cl))
  · intro hcl
    -- The other entries are those of before.
    refine ⟨?_, hvalid.nodeReqs, hvalid.nodeGuars, hvalid.noObligationObjs⟩
    exact List.forall_mem_append.mpr ⟨hvalid.clauses, List.forall_mem_singleton.mpr hcl⟩

/-- A new requirement keeps the contract valid exactly if it is valid. -/
theorem addNodeReq_iff {r : ConcurrencyContract.NodeReq} (hvalid : ContractValid G seeded c) :
    ContractValid G seeded (c.addNodeReq r) ↔ ReqValid G seeded r := by
  constructor
  · intro hvalid'
    exact hvalid'.nodeReqs r (List.mem_append_right _ (List.mem_singleton_self r))
  · intro hr
    refine ⟨hvalid.clauses, ?_, hvalid.nodeGuars, hvalid.noObligationObjs⟩
    exact List.forall_mem_append.mpr ⟨hvalid.nodeReqs, List.forall_mem_singleton.mpr hr⟩

/-- A new guarantee keeps the contract valid exactly if it is valid. -/
theorem addNodeGuar_iff {g : ConcurrencyContract.NodeGuar} (hvalid : ContractValid G seeded c) :
    ContractValid G seeded (c.addNodeGuar g) ↔ GuarValid G seeded g := by
  constructor
  · intro hvalid'
    exact hvalid'.nodeGuars g (List.mem_append_right _ (List.mem_singleton_self g))
  · intro hg
    refine ⟨hvalid.clauses, hvalid.nodeReqs, ?_, hvalid.noObligationObjs⟩
    exact List.forall_mem_append.mpr ⟨hvalid.nodeGuars, List.forall_mem_singleton.mpr hg⟩

/-- Declaring an object keeps the contract valid exactly if the object is seeded, or ignored. -/
theorem addNoObligation_iff {oid : ℤ} (hvalid : ContractValid G seeded c) :
    ContractValid G seeded (c.addNoObligation oid) ↔ (0 ≤ oid → oid ∈ seeded) := by
  unfold addNoObligation
  split_ifs with hoid
  · constructor
    · intro hvalid' _
      exact hvalid'.noObligationObjs oid (List.mem_append_right _ (List.mem_singleton_self oid))
    · intro hseeded
      refine ⟨hvalid.clauses, hvalid.nodeReqs, hvalid.nodeGuars, ?_⟩
      exact List.forall_mem_append.mpr
        ⟨hvalid.noObligationObjs, List.forall_mem_singleton.mpr (hseeded hoid)⟩
  -- A negative id is ignored.
  · exact ⟨fun _ hnonneg => absurd hnonneg hoid, fun _ => hvalid⟩

end ContractValid

/-! ### What the checker reads -/

namespace ConcurrencyContract

/-- A requirement as the checker reads it, if it knows the form. -/
def NodeReq.checked (r : NodeReq) : Option Lace.NodeReq :=
  (ReqForm.ofName r.form).map fun form =>
    { form, a := r.a, b := r.b, objectId := r.objectId, note := r.note }

end ConcurrencyContract

namespace ContractValid

/-- The checker knows the form of every requirement of a valid contract. -/
theorem checked (hvalid : ContractValid G seeded c) {r : ConcurrencyContract.NodeReq}
    (hr : r ∈ c.nodeReqs) : r.checked.isSome := by
  have hform := (hvalid.nodeReqs r hr).form
  rw [requirementForms, List.mem_cons, List.mem_cons, List.mem_singleton] at hform
  unfold NodeReq.checked
  rcases hform with hform | hform | hform
  · rw [hform]
    rfl
  · rw [hform]
    rfl
  · rw [hform]
    rfl

end ContractValid

end LLM

end Lace
