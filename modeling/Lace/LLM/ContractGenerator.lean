import Mathlib.Data.List.ReduceOption
import Lace.Library.Machine
import Lace.LLM.ConcurrencyContract
import Lace.LLM.Json
import Lace.PhaseB.Clause

/-!
# The contract generator

The tools with which `ContractGeneratorAgent` writes the contract of a thread. In the legacy mode
they are `report_clause` and its companions; in the node-anchored mode they are `add_requirement`,
`add_guarantee` and `declare_no_obligation`. Only `report_clause` looks up the ids of surface
objects among the seeded ones.

## Main definitions

* `ContractGeneratorAgent`: what the tools read;
* `ContractGeneratorAgent.reportClause`, `addRequirement`, `addGuarantee`: the tools that validate
  their arguments;
* `ContractGeneratorAgent.executeTool`: one tool call;
* `ContractGeneratorAgent.BindsSeeded`: a call that records an entry names no foreign object.

## Main results

* `ContractGeneratorAgent.clauseValid_of_reportClause`: what `report_clause` accepts is valid;
* `ContractGeneratorAgent.addRequirement_cases`, `addGuarantee_cases`: what the
  node-anchored tools accept;
* `SeededSession.contractValid_iff`: when the contract is valid along a run.
-/

namespace Lace.LLM

open Library LLM.ConcurrencyContract

/-! ### The tools -/

/-- The tools of the agent, besides those that read the program. -/
inductive ContractTool
  | confirmRoleAndSummary | reportClause | reportOrdering | addRequirement | addGuarantee
  | declareNoObligation | finalizeContract
  deriving DecidableEq, Repr

/-- The name of a tool. -/
def ContractTool.name : ContractTool → String
  | .confirmRoleAndSummary => "confirm_role_and_summary"
  | .reportClause => "report_clause"
  | .reportOrdering => "report_ordering"
  | .addRequirement => "add_requirement"
  | .addGuarantee => "add_guarantee"
  | .declareNoObligation => "declare_no_obligation"
  | .finalizeContract => "finalize_contract"

/-- A tool call. -/
structure ContractCall where
  /-- The tool. -/
  tool : ContractTool
  /-- Its arguments. -/
  arguments : Json

/-- The answer to a call. -/
inductive ContractAnswer
  /-- `finish`, which ends the session. -/
  | finish
  /-- An object. -/
  | reply (body : Json)
  /-- Reading the arguments threw. -/
  | throws

/-- The answer is an error: it has a member `error`, or is an exception. -/
def ContractAnswer.isError : ContractAnswer → Bool
  | .finish => false
  | .reply body => body.contains "error"
  | .throws => true

/-- The answer with nothing but an error. -/
def replyError (text : String) : ContractAnswer := .reply (.obj [("error", .str text)])

/-- The answer with nothing but a status. -/
def replyStatus (text : String) : ContractAnswer := .reply (.obj [("status", .str text)])

/-- The member with the node ids that were not found, if there are any. -/
def idsMember (key : String) (ids : List NodeId) : List (String × Json) :=
  if ids.isEmpty then [] else [(key, .arr (ids.map .int))]

/-- `ThreadAccess`: the fields that the guard of `no_order_needed` reads. -/
structure TouchedAccess where
  /-- `thread_id`. -/
  threadId : Tid
  /-- `code_snippet`. -/
  codeSnippet : String
  /-- `location`. -/
  location : String
  deriving DecidableEq, Repr

/-- `ContractGeneratorAgent` in a run of `generateContractForThread`. -/
structure ContractGeneratorAgent where
  /-- `ccpg_`. -/
  ccpg : CCPG
  /-- `l2Mode_`. -/
  l2Mode : Bool
  /-- `objectIds`. -/
  objectIds : List ℤ
  /-- `touchedObjects`, with their accesses; a null pointer is `none`. -/
  touchedObjects : List (Option (List TouchedAccess))

/-- What the calls of a run change. -/
structure ContractState where
  /-- The contract. -/
  contract : ConcurrencyContract
  /-- `reportRounds_`. -/
  reportRounds : ℕ := 0
  deriving DecidableEq, Repr

/-! ### Relations and snippets -/

/-- `canonicalRequirementRelation`. -/
def canonicalRequirementRelation (rel : String) : String :=
  match PhaseB.lower rel with
  | "prec" | "order" => "ORDER"
  | "atomic" => "REGION_ISOLATED"
  | "count_guarded" | "stable_during" => "STABLE_DURING"
  | "conflict_mediated" => "CONFLICT_MEDIATED"
  | "region_isolated" => "REGION_ISOLATED"
  | "progress_enabled" => "PROGRESS_ENABLED"
  | _ => PhaseB.relUpper rel

/-- `canonicalGuaranteeRelation`: the name under which a relation is stored, whatever the model
calls it. -/
def canonicalGuaranteeRelation (rel : String) : String :=
  match PhaseB.lower rel with
  | "order" => "ORDER"
  | "serialize" | "exclude" => "EXCLUDE"
  | "counts" | "linearize" => "LINEARIZE"
  | "wait" => "WAIT"
  | _ => PhaseB.relUpper rel

/-- `branchLike`: signs that a line of code decides something. -/
def branchWords : List String :=
  ["if (", "if(", "while (", "while(", "for (", "for(", "&&", "||", "!=", "==", "<=", ">=", " ? "]

/-- `indexOrSize`: signs that a line of code deals with an index or a length. -/
def indexWords : List String :=
  ["[", "alloc", "skb_put", "memcpy", "memmove", "copy_", "_copy", "len", "size", "bound"]

/-- `lifetimeOrLinks`: signs that a line of code deals with the lifetime of an object. -/
def lifetimeWords : List String :=
  ["kfree", "free(", "refcount", "kref", "list_", "hlist_", "rb_", "xarray", "xa_"]

/-- An access whose snippet shows a consequential use. -/
def TouchedAccess.isConsequential (a : TouchedAccess) : Bool :=
  (branchWords ++ indexWords ++ lifetimeWords).any (PhaseB.has (PhaseB.lower a.codeSnippet))

/-- `hasObviousLocalConsequence`, with the evidence. -/
def hasObviousLocalConsequence (accesses : List TouchedAccess) (tid : Tid) : Option String :=
  (accesses.find? fun a => a.threadId = tid && a.isConsequential).map fun a =>
    a.codeSnippet ++ if a.location.isEmpty then "" else " @ " ++ a.location

/-! ### Reading the arguments -/

/-- The integer under a key. -/
def integerMember (arguments : Json) (key : String) : Option ℤ :=
  (arguments.field key).bind Json.asInteger

/-- The array under a key, empty if there is none. -/
def arrayMember (arguments : Json) (key : String) : List Json :=
  ((arguments.field key).bind Json.asArray).getD []

/-- The ids of a clause: `object_id`, then `object_ids`, each id once. -/
def clauseObjectIds (arguments : Json) : List ℤ :=
  -- `add` skips negative ids and those it has seen.
  (((integerMember arguments "object_id").toList ++
    (arrayMember arguments "object_ids").filterMap Json.asInteger).filter (0 ≤ ·)).eraseDups

/-- One element of `assume` or `guarantee`, with its relation, or nothing if that is outside the
vocabulary. -/
def readRelation (canonical : String → String) (vocabulary : List String) (item : Json) :
    Option (Option OrderReq) := do
  let rel ← item.valueString "relation" ""
  -- Relations outside the vocabulary are counted as dropped; their other members are not read.
  if canonical rel ∈ vocabulary then
    let detail ← item.valueString "detail" ""
    let provenance ← item.valueString "provenance" ""
    some (some { relation := canonical rel, detail, provenance })
  else some none

/-- The elements of `assume` or `guarantee`; those that are no objects are skipped. -/
def readRelations (canonical : String → String) (vocabulary : List String) (items : List Json) :
    Option (List (Option OrderReq)) :=
  (items.filter Json.isObject).mapM (readRelation canonical vocabulary)

namespace ContractGeneratorAgent

variable (A : ContractGeneratorAgent)

/-- `seededObjectIds_`: the objects of the surface that the session is about. -/
def seededObjectIds : List ℤ := A.objectIds.filter (0 ≤ ·)

/-- `seededObjectsById_`: the last object that came with an id. -/
def seededObjectsById (id : ℤ) : Option (List TouchedAccess) :=
  ((A.objectIds.zip A.touchedObjects).filterMap fun entry =>
    if 0 ≤ entry.1 ∧ entry.1 = id then entry.2 else none).getLast?

/-- `reportHardCap`: how many reports a session may make before the tools refuse. -/
def reportHardCap : ℕ := min 70 (max 30 (A.seededObjectIds.eraseDups.length + 20))

/-- `parseNodes`: the ids of a node array, each once. -/
def nodeIds (arguments : Json) (key : String) : List NodeId :=
  ((arrayMember arguments key).filterMap Json.asInteger).eraseDups

/-- The ids that `parseNodes` finds in the graph. -/
def validNodes (arguments : Json) (key : String) : List NodeId :=
  (nodeIds arguments key).filter fun id => (A.ccpg.getNodeByID id).isSome

/-- The ids that `parseNodes` does not find. -/
def invalidNodes (arguments : Json) (key : String) : List NodeId :=
  (nodeIds arguments key).filter fun id => !(A.ccpg.getNodeByID id).isSome

/-- The ids of both operands that are not found. -/
def invalidOperands (arguments : Json) : List NodeId :=
  A.invalidNodes arguments "a_nodes" ++ A.invalidNodes arguments "b_nodes"

/-- `object_id` of a node-anchored entry, or `-1`. -/
def anchorOf (arguments : Json) : ℤ := (integerMember arguments "object_id").getD (-1)

/-- The guard of `no_order_needed`: the first object with an obvious consequence, and the
evidence. -/
def obviousConsequence (tid : Tid) (oid : ℤ) : Option (ℤ × String) :=
  (A.seededObjectsById oid).bind fun accesses =>
    (hasObviousLocalConsequence accesses tid).map fun evidence => (oid, evidence)

/-! ### The tools that record an entry -/

/-- The answer where `no_order_needed` is rejected. -/
def noOrderRejected (oid : ℤ) (evidence : String) : ContractAnswer :=
  .reply <| .obj <|
    ("error", .str ("no_order_needed rejected for [obj#" ++ toString oid ++
      "]: this thread's access has an obvious consequential use. " ++
      "Do not treat id/state/count/flag metadata as benign when it " ++
      "drives a branch/comparison, selection/removal, size/index, " ++
      "free/refcount, or list/tree operation. Emit report_clause with " ++
      "a real assume such as REGION_ISOLATED(check_use_region, " ++
      "invalidators) or STABLE_DURING(use_region, live(resource)), " ++
      "or split this object out of the benign object_ids list.")) ::
    if evidence.isEmpty then [] else [("evidence", .str evidence)]

/-- A clause as it is read, before `no_order_needed` is honoured, and the number of dropped
relations. -/
def readClause (resource : String) (objectIds : List ℤ) (arguments : Json) :
    Option (OrderClause × ℕ) := do
  let assume ← readRelations canonicalRequirementRelation assumeRelations
    (arrayMember arguments "assume")
  let guarantee ← readRelations canonicalGuaranteeRelation guaranteeRelations
    (arrayMember arguments "guarantee")
  some
    ({ resource
       objectId := objectIds.head?.getD (-1)
       objectIds
       sites := (arrayMember arguments "sites").filterMap Json.asString
       assume := assume.reduceOption
       guarantee := guarantee.reduceOption },
      assume.count none + guarantee.count none)

/-- `no_order_needed` is honoured for a clause without relations, and rejected where an access shows
an obvious consequence. -/
def waiveOrder (tid : Tid) (arguments : Json) (clause : OrderClause) :
    Except ContractAnswer OrderClause :=
  match arguments.valueBool "no_order_needed" false with
  | none => .error .throws
  | some noOrderNeeded =>
    -- With relations in the clause the declaration is ignored.
    if noOrderNeeded && clause.assume.isEmpty && clause.guarantee.isEmpty then
      match clause.objectIds.findSome? (A.obviousConsequence tid) with
      | some (oid, evidence) => .error (noOrderRejected oid evidence)
      | none =>
        match arguments.valueString "no_order_reason" "" with
        | none => .error .throws
        | some noOrderReason => .ok { clause with noOrderNeeded := true, noOrderReason }
    else .ok clause

/-- `report_clause`: the clause and the number of dropped relations, or the answer that rejects
it. -/
def reportClause (tid : Tid) (arguments : Json) : Except ContractAnswer (OrderClause × ℕ) :=
  match arguments.valueString "resource" "" with
  | none => .error .throws
  | some resource =>
    let objectIds := clauseObjectIds arguments
    if resource.isEmpty then
      .error (replyError "report_clause needs a non-empty 'resource'.")
    -- A clause of a seeded session has to name its objects, and only seeded ones.
    else if !A.seededObjectIds.isEmpty && objectIds.isEmpty then
      .error (replyError ("Seeded ThreadContract clauses must bind to the static surface with " ++
        "object_id or object_ids. Use the [obj#N] id shown in the evidence packet, or use " ++
        "report_ordering for a thread-level cross-resource note."))
    else
      match objectIds.find? fun oid => !A.seededObjectIds.isEmpty && oid ∉ A.seededObjectIds with
      | some oid =>
        .error (replyError ("object_id " ++ toString oid ++ " was not listed in this thread's " ++
          "evidence packet. Use only the shown [obj#N] ids."))
      | none =>
        match readClause resource objectIds arguments with
        | none => .error .throws
        | some (clause, dropped) => (A.waiveOrder tid arguments clause).map fun cl => (cl, dropped)

/-- The answer to a recorded clause. -/
def clauseRecorded (dropped clausesSoFar : ℕ) : ContractAnswer :=
  .reply <| .obj <|
    [("clauses_so_far", .int clausesSoFar),
      ("status", .str ("Clause recorded. For remaining [HIGH-RISK] objects, emit a real assume " ++
        "ONLY when there is an anchored safety obligation (branch/selection/removal, " ++
        "index/size, pointer/lifetime, list/tree, limit check, publish/use, wait/enabler). " ++
        "Batch the rest into ONE no_order_needed=true clause with object_ids=[...]. " ++
        "id/state/count/flag fields are NOT benign if they drive a decision. Then " ++
        "finalize_contract."))] ++
    if dropped = 0 then []
    else
      [("warning", .str ("Dropped " ++ toString dropped ++ " relation(s) outside the closed " ++
        "vocabulary (assume: ORDER/CONFLICT_MEDIATED/REGION_ISOLATED/STABLE_DURING/" ++
        "PROGRESS_ENABLED; guarantee: ORDER/EXCLUDE/LINEARIZE/WAIT)."))]

/-- The answer where the first operand is empty. -/
def needsFirstOperand (tool : ContractTool) (invalid : List NodeId) : ContractAnswer :=
  .reply <| .obj <|
    ("error", .str (tool.name ++ " needs a non-empty a_nodes of valid CCPG node ids.")) ::
      idsMember "invalid_node_ids" invalid

/-- `add_requirement`: the requirement, or the answer that rejects it. -/
def addRequirement (arguments : Json) : Except ContractAnswer ConcurrencyContract.NodeReq :=
  match arguments.valueString "form" "" with
  | none => .error .throws
  | some form =>
    let a := A.validNodes arguments "a_nodes"
    let b := A.validNodes arguments "b_nodes"
    if form ∉ requirementForms then
      .error (replyError
        "add_requirement.form must be one of MustPrecede | MustBeAtomic | MustBeMediated.")
    else if a = [] then .error (needsFirstOperand .addRequirement (A.invalidOperands arguments))
    else if form ≠ "MustBeAtomic" ∧ b = [] then
      .error (replyError
        "MustPrecede / MustBeMediated need a non-empty b_nodes (the second operand).")
    else
      match arguments.valueString "note" "" with
      | none => .error .throws
      -- The id of the object is taken as it is.
      | some note => .ok { form, a, b, objectId := anchorOf arguments, note }

/-- The answer to a recorded requirement. -/
def requirementRecorded (form : String) (invalid : List NodeId) (requirementsSoFar : ℕ) :
    ContractAnswer :=
  .reply <| .obj <|
    idsMember "ignored_invalid_node_ids" invalid ++
      [("requirements_so_far", .int requirementsSoFar),
        ("status", .str ("Requirement recorded (" ++ form ++ "). Continue with more " ++
          "requirements/guarantees, then finalize_contract."))]

/-- `add_guarantee`: the guarantee, or the answer that rejects it. -/
def addGuarantee (arguments : Json) : Except ContractAnswer ConcurrencyContract.NodeGuar :=
  match arguments.valueString "form" "" with
  | none => .error .throws
  | some form =>
    let a := A.validNodes arguments "a_nodes"
    let b := A.validNodes arguments "b_nodes"
    if form ∉ guaranteeForms then
      .error (replyError "add_guarantee.form must be one of Order | Exclude | AtomicOp | Wait.")
    else if a = [] then .error (needsFirstOperand .addGuarantee (A.invalidOperands arguments))
    else if (form = "Order" ∨ form = "Wait") ∧ b = [] then
      .error (replyError
        "Order / Wait need a non-empty b_nodes (the target / continuation).")
    else
      match arguments.valueString "token" "" with
      | none => .error .throws
      | some token =>
        if (form = "Exclude" ∨ form = "AtomicOp") ∧ token = "" then
          .error (replyError ("Exclude / AtomicOp need a non-empty 'token' (the lock/atomic that " ++
            "coordinates the region)."))
        else
          match arguments.valueString "mode" "", arguments.valueString "note" "" with
          | some mode, some note =>
            .ok { form, a, b, token, mode, objectId := anchorOf arguments, note }
          | _, _ => .error .throws

/-- The answer to a recorded guarantee. -/
def guaranteeRecorded (form : String) (invalid : List NodeId) (guaranteesSoFar : ℕ) :
    ContractAnswer :=
  .reply <| .obj <|
    ("guarantees_so_far", .int guaranteesSoFar) ::
      idsMember "ignored_invalid_node_ids" invalid ++
        [("status", .str ("Guarantee recorded (" ++ form ++ ")."))]

/-- `confirm_role_and_summary` with its two texts as they are read; the role is set before the
summary is read. -/
def confirmRoleAndSummary (c : ConcurrencyContract) (role summary : Option String)
    (status : String) : ContractAnswer × ConcurrencyContract :=
  match role with
  | none => (.throws, c)
  | some role =>
    match summary with
    -- The role stays set when reading the summary throws.
    | none => (.throws, { c with role })
    | some summary => (replyStatus status, { c with role, summary })

/-- `report_ordering`: the tool that notes an ordering. -/
def reportOrdering (c : ConcurrencyContract) (arguments : Json) :
    ContractAnswer × ConcurrencyContract :=
  match arguments.valueString "detail" "" with
  | none => (.throws, c)
  | some detail =>
    if detail.isEmpty then (replyError "report_ordering needs a non-empty 'detail'.", c)
    else
      match arguments.valueString "provenance" "" with
      | none => (.throws, c)
      | some prov =>
        (replyStatus "Thread-level ordering recorded.",
          c.addOrdering (if prov.isEmpty then detail else detail ++ "  [" ++ prov ++ "]"))

/-! ### One call -/

/-- The tools of `execute_tool` itself. -/
def legacyTool (c : ConcurrencyContract) (call : ContractCall) :
    ContractAnswer × ConcurrencyContract :=
  match call.tool with
  | .confirmRoleAndSummary =>
    confirmRoleAndSummary c ((call.arguments.field "role").bind Json.getString)
      ((call.arguments.field "summary").bind Json.getString)
      ("Role/summary recorded. Now call report_clause ONLY for resources with a real local " ++
        "requirement or synchronization guarantee (skip pure reads/counters/config scalars; " ++
        "merge same-lock fields via object_ids), then finalize_contract.")
  | .reportClause =>
    match A.reportClause c.threadId call.arguments with
    | .error answer => (answer, c)
    | .ok (clause, dropped) =>
      (clauseRecorded dropped (c.addClause clause).clauses.length, c.addClause clause)
  | .reportOrdering => reportOrdering c call.arguments
  | .finalizeContract => (.finish, c)
  | .addRequirement | .addGuarantee | .declareNoObligation =>
    (replyError ("Tool '" ++ call.tool.name ++ "' not found or not implemented by this agent."), c)

/-- The tools of `execute_l2_tool`. -/
def l2Tool (c : ConcurrencyContract) (call : ContractCall) :
    ContractAnswer × ConcurrencyContract :=
  match call.tool with
  | .confirmRoleAndSummary =>
    confirmRoleAndSummary c (call.arguments.valueString "role" "")
      (call.arguments.valueString "summary" "")
      ("Role/summary recorded. Now call add_requirement / add_guarantee with concrete node ids, " ++
        "then finalize_contract.")
  | .addRequirement =>
    match A.addRequirement call.arguments with
    | .error answer => (answer, c)
    | .ok r =>
      (requirementRecorded r.form (A.invalidOperands call.arguments)
        (c.addNodeReq r).nodeReqs.length, c.addNodeReq r)
  | .addGuarantee =>
    match A.addGuarantee call.arguments with
    | .error answer => (answer, c)
    | .ok g =>
      (guaranteeRecorded g.form (A.invalidOperands call.arguments)
        (c.addNodeGuar g).nodeGuars.length, c.addNodeGuar g)
  | .declareNoObligation =>
    match integerMember call.arguments "object_id" with
    | none => (replyError "declare_no_obligation needs an integer object_id.", c)
    -- The id is not looked up among the seeded ones.
    | some oid => (replyStatus "No-obligation declaration recorded.", c.addNoObligation oid)
  | .finalizeContract => (.finish, c)
  | .reportClause | .reportOrdering =>
    (replyError ("Tool '" ++ call.tool.name ++ "' is not available in node-anchored (L2) mode. " ++
      "Use add_requirement / add_guarantee / declare_no_obligation / finalize_contract."), c)

/-- The tools whose calls are counted in `reportRounds_`. -/
def isCounted : ContractTool → Bool
  | .confirmRoleAndSummary => true
  | .reportClause | .reportOrdering => !A.l2Mode
  | .addRequirement | .addGuarantee | .declareNoObligation => A.l2Mode
  | .finalizeContract => false

/-- `execute_tool` behind the cap on the rounds. -/
def dispatch (c : ConcurrencyContract) (call : ContractCall) :
    ContractAnswer × ConcurrencyContract :=
  if A.l2Mode then A.l2Tool c call else A.legacyTool c call

/-- `ContractGeneratorAgent::execute_tool` for the tools that do not read the program. -/
def executeTool (s : ContractState) (call : ContractCall) : ContractAnswer × ContractState :=
  -- The call is counted before the cap is looked at.
  let reportRounds := if A.isCounted call.tool then s.reportRounds + 1 else s.reportRounds
  if A.isCounted call.tool && A.reportHardCap < reportRounds then
    (.finish, { s with reportRounds })
  else
    ((A.dispatch s.contract call).1, { contract := (A.dispatch s.contract call).2, reportRounds })

/-- One call as a step of the session. -/
def step (s : ContractState) (call : ContractCall) : Option ContractState :=
  some (A.executeTool s call).2

/-! ### What a valid contract asks of the calls -/

/-- The arguments of `add_requirement` pass its checks. -/
structure RequirementAccepted (arguments : Json) : Prop where
  /-- The form is in the vocabulary, and has the second operand that it needs. -/
  form : ∃ form ∈ requirementForms, arguments.valueString "form" "" = some form ∧
    (form ≠ "MustBeAtomic" → A.validNodes arguments "b_nodes" ≠ [])
  /-- There is a first operand. -/
  first : A.validNodes arguments "a_nodes" ≠ []
  /-- The note is a text, if there is one. -/
  note : (arguments.valueString "note" "").isSome

/-- The arguments of `add_guarantee` pass its checks. -/
structure GuaranteeAccepted (arguments : Json) : Prop where
  /-- The form is in the vocabulary, and has the second operand and the token that it needs. -/
  form : ∃ form ∈ guaranteeForms, arguments.valueString "form" "" = some form ∧
    (form = "Order" ∨ form = "Wait" → A.validNodes arguments "b_nodes" ≠ []) ∧
    (form = "Exclude" ∨ form = "AtomicOp" → arguments.valueString "token" "" ≠ some "")
  /-- There is a first operand. -/
  first : A.validNodes arguments "a_nodes" ≠ []
  /-- The token is a text, if there is one. -/
  token : (arguments.valueString "token" "").isSome
  /-- The mode is a text, if there is one. -/
  mode : (arguments.valueString "mode" "").isSome
  /-- The note is a text, if there is one. -/
  note : (arguments.valueString "note" "").isSome

/-- A node-anchored call whose arguments pass the checks names no foreign object. -/
def NamesSeeded (call : ContractCall) : Prop :=
  match call.tool with
  | .addRequirement =>
    A.RequirementAccepted call.arguments → Anchored A.seededObjectIds (anchorOf call.arguments)
  | .addGuarantee =>
    A.GuaranteeAccepted call.arguments → Anchored A.seededObjectIds (anchorOf call.arguments)
  | .declareNoObligation =>
    ∀ oid, integerMember call.arguments "object_id" = some oid → 0 ≤ oid → oid ∈ A.seededObjectIds
  | .confirmRoleAndSummary | .reportClause | .reportOrdering | .finalizeContract => True

/-- The guard of a step: in the node-anchored mode and before the cap on the rounds, the call names
no foreign object. -/
def BindsSeeded (s : ContractState) (call : ContractCall) : Prop :=
  A.l2Mode = true → s.reportRounds < A.reportHardCap → A.NamesSeeded call

variable {A} {c : ConcurrencyContract} {call : ContractCall} {arguments : Json} {tid : Tid}

/-! ### Reading the arguments -/

/-- What is read is in the vocabulary. -/
theorem relation_mem_of_readRelations {canonical : String → String} {vocabulary : List String}
    {items : List Json} {read : List (Option OrderReq)}
    (hread : readRelations canonical vocabulary items = some read) :
    ∀ r ∈ read.reduceOption, r.relation ∈ vocabulary := by
  intro r hr
  rw [List.reduceOption_mem_iff] at hr
  obtain ⟨item, -, hitem⟩ := exists_of_mem_mapM hread hr
  unfold readRelation at hitem
  simp only [Option.bind_eq_bind, Option.bind_eq_some_iff] at hitem
  obtain ⟨rel, -, hrel⟩ := hitem
  -- A relation outside of the vocabulary is dropped.
  split_ifs at hrel with hmem
  · simp only [Option.bind_eq_some_iff] at hrel
    obtain ⟨detail, -, provenance, -, hr⟩ := hrel
    cases hr
    exact hmem
  · cases hrel

theorem mem_nodes_of_validNodes {key : String} {n : NodeId}
    (hn : n ∈ A.validNodes arguments key) : n ∈ A.ccpg.nodes := by
  rw [validNodes, List.mem_filter, CCPG.isSome_getNodeByID] at hn
  exact hn.2

/-- The operands of an entry are nodes of the graph. -/
theorem mem_nodes_of_operands :
    ∀ n ∈ A.validNodes arguments "a_nodes" ++ A.validNodes arguments "b_nodes",
      n ∈ A.ccpg.nodes :=
  List.forall_mem_append.mpr
    ⟨fun _ => mem_nodes_of_validNodes, fun _ => mem_nodes_of_validNodes⟩

/-! ### What the tools accept -/

/-- A clause that is read has the relations of the vocabulary and the ids it was given. -/
theorem readClause_valid {resource : String} {objectIds seeded : List ℤ} {clause : OrderClause}
    {dropped : ℕ} (hread : readClause resource objectIds arguments = some (clause, dropped))
    (hnonempty : objectIds ≠ []) (hids : ∀ id ∈ objectIds, id ∈ seeded) :
    ClauseValid seeded clause := by
  unfold readClause at hread
  simp only [Option.bind_eq_bind, Option.bind_eq_some_iff] at hread
  obtain ⟨assume, hassume, guarantee, hguarantee, heq⟩ := hread
  cases heq
  refine ⟨relation_mem_of_readRelations hassume, relation_mem_of_readRelations hguarantee, ?_,
    hids⟩
  show objectIds.head? = some (objectIds.head?.getD (-1))
  rw [List.head?_eq_some_head hnonempty]
  rfl

/-- Waiving the order keeps the relations and the objects of a clause. -/
theorem clauseValid_of_waiveOrder {seeded : List ℤ} {clause clause' : OrderClause}
    (hvalid : ClauseValid seeded clause)
    (hok : A.waiveOrder tid arguments clause = .ok clause') : ClauseValid seeded clause' := by
  unfold waiveOrder at hok
  split at hok
  · cases hok
  · split_ifs at hok
    · split at hok
      · cases hok
      · split at hok
        · cases hok
        · cases hok
          exact ⟨hvalid.assume, hvalid.guarantee, hvalid.first, hvalid.seeded⟩
    · cases hok
      exact hvalid

/-- What `report_clause` accepts is valid, if some object is seeded. -/
theorem clauseValid_of_reportClause (hseeded : A.seededObjectIds ≠ []) {clause : OrderClause}
    {dropped : ℕ} (hok : A.reportClause tid arguments = .ok (clause, dropped)) :
    ClauseValid A.seededObjectIds clause := by
  have hsome : A.seededObjectIds.isEmpty = false := List.isEmpty_eq_false_iff.mpr hseeded
  unfold reportClause at hok
  split at hok
  · cases hok
  · dsimp only at hok
    rw [hsome, Bool.not_false, Bool.true_and] at hok
    split_ifs at hok with hresource hempty
    split at hok
    · cases hok
    · next hall =>
      split at hok
      · cases hok
      · next clause' dropped' hread =>
        -- The search for a foreign id came back empty.
        have hids : ∀ id ∈ clauseObjectIds arguments, id ∈ A.seededObjectIds := by
          intro id hid
          simpa [hsome] using List.find?_eq_none.mp hall id hid
        have hvalid := readClause_valid hread (by simpa using hempty) hids
        cases hwaive : A.waiveOrder tid arguments clause' with
        | error answer =>
          rw [hwaive] at hok
          cases hok
        | ok clause'' =>
          rw [hwaive] at hok
          cases hok
          exact clauseValid_of_waiveOrder hvalid hwaive

/-- The arguments that pass the checks of `add_requirement` give a requirement, which is valid
exactly if its object is seeded; the others give an error. -/
theorem addRequirement_cases (A : ContractGeneratorAgent) (arguments : Json) :
    (∃ r, A.addRequirement arguments = .ok r ∧ A.RequirementAccepted arguments ∧
        (ReqValid A.ccpg A.seededObjectIds r ↔
          Anchored A.seededObjectIds (anchorOf arguments))) ∨
      ∃ answer, A.addRequirement arguments = .error answer ∧
        ¬A.RequirementAccepted arguments := by
  unfold addRequirement
  cases hform : arguments.valueString "form" "" with
  | none =>
    refine .inr ⟨_, rfl, fun haccepted => ?_⟩
    obtain ⟨form, -, hsome, -⟩ := haccepted.form
    rw [hform] at hsome
    cases hsome
  | some form =>
    -- The form of accepted arguments is the one that was read.
    have hsame : A.RequirementAccepted arguments → form ∈ requirementForms ∧
        (form ≠ "MustBeAtomic" → A.validNodes arguments "b_nodes" ≠ []) := by
      intro haccepted
      obtain ⟨form', hmem, hsome, hsecond⟩ := haccepted.form
      rw [hform] at hsome
      cases hsome
      exact ⟨hmem, hsecond⟩
    dsimp only
    -- The checks in the order in which the tool makes them.
    by_cases hmem : form ∈ requirementForms
    case neg =>
      rw [if_pos hmem]
      exact .inr ⟨_, rfl, fun haccepted => hmem (hsame haccepted).1⟩
    rw [if_neg (not_not.mpr hmem)]
    split_ifs with hfirst hsecond
    · exact .inr ⟨_, rfl, fun haccepted => haccepted.first hfirst⟩
    · exact .inr ⟨_, rfl, fun haccepted => (hsame haccepted).2 hsecond.1 hsecond.2⟩
    · rw [not_and] at hsecond
      cases hnote : arguments.valueString "note" "" with
      | none =>
        refine .inr ⟨_, rfl, fun haccepted => ?_⟩
        exact Option.isSome_iff_ne_none.mp haccepted.note hnote
      | some note =>
        -- All checks passed; what is left to ask of the requirement is its object.
        refine .inl ⟨_, rfl, ⟨⟨form, hmem, hform, hsecond⟩, hfirst,
          Option.isSome_of_eq_some hnote⟩, fun hr => hr.object, fun hanchored => ?_⟩
        exact ⟨hmem, mem_nodes_of_operands, hfirst, hsecond, hanchored⟩

/-- The arguments that pass the checks of `add_guarantee` give a guarantee, which is valid exactly
if its object is seeded; the others give an error. -/
theorem addGuarantee_cases (A : ContractGeneratorAgent) (arguments : Json) :
    (∃ g, A.addGuarantee arguments = .ok g ∧ A.GuaranteeAccepted arguments ∧
        (GuarValid A.ccpg A.seededObjectIds g ↔
          Anchored A.seededObjectIds (anchorOf arguments))) ∨
      ∃ answer, A.addGuarantee arguments = .error answer ∧
        ¬A.GuaranteeAccepted arguments := by
  unfold addGuarantee
  cases hform : arguments.valueString "form" "" with
  | none =>
    refine .inr ⟨_, rfl, fun haccepted => ?_⟩
    obtain ⟨form, -, hsome, -⟩ := haccepted.form
    rw [hform] at hsome
    cases hsome
  | some form =>
    have hsame : A.GuaranteeAccepted arguments → form ∈ guaranteeForms ∧
        (form = "Order" ∨ form = "Wait" → A.validNodes arguments "b_nodes" ≠ []) ∧
        (form = "Exclude" ∨ form = "AtomicOp" →
          arguments.valueString "token" "" ≠ some "") := by
      intro haccepted
      obtain ⟨form', hmem, hsome, hneeds⟩ := haccepted.form
      rw [hform] at hsome
      cases hsome
      exact ⟨hmem, hneeds⟩
    dsimp only
    -- The checks in the order in which the tool makes them.
    by_cases hmem : form ∈ guaranteeForms
    case neg =>
      rw [if_pos hmem]
      exact .inr ⟨_, rfl, fun haccepted => hmem (hsame haccepted).1⟩
    rw [if_neg (not_not.mpr hmem)]
    split_ifs with hfirst hsecond
    · exact .inr ⟨_, rfl, fun haccepted => haccepted.first hfirst⟩
    · exact .inr ⟨_, rfl, fun haccepted => (hsame haccepted).2.1 hsecond.1 hsecond.2⟩
    · rw [not_and] at hsecond
      cases htoken : arguments.valueString "token" "" with
      | none =>
        refine .inr ⟨_, rfl, fun haccepted => ?_⟩
        exact Option.isSome_iff_ne_none.mp haccepted.token htoken
      | some token =>
        dsimp only
        split_ifs with hneeds
        · refine .inr ⟨_, rfl, fun haccepted => (hsame haccepted).2.2 hneeds.1 ?_⟩
          rw [htoken, hneeds.2]
        · rw [not_and] at hneeds
          cases hmode : arguments.valueString "mode" "" with
          | none =>
            refine .inr ⟨_, rfl, fun haccepted => ?_⟩
            exact Option.isSome_iff_ne_none.mp haccepted.mode hmode
          | some mode =>
            cases hnote : arguments.valueString "note" "" with
            | none =>
              refine .inr ⟨_, rfl, fun haccepted => ?_⟩
              exact Option.isSome_iff_ne_none.mp haccepted.note hnote
            | some note =>
              refine .inl ⟨_, rfl, ⟨⟨form, hmem, hform, hsecond, ?_⟩, hfirst,
                Option.isSome_of_eq_some htoken, Option.isSome_of_eq_some hmode,
                Option.isSome_of_eq_some hnote⟩, fun hg => hg.object, fun hanchored => ?_⟩
              · intro hexclude htoken'
                rw [htoken, Option.some.injEq] at htoken'
                exact hneeds hexclude htoken'
              · exact ⟨hmem, mem_nodes_of_operands, hfirst, hsecond, hneeds, hanchored⟩

/-! ### One call -/

/-- The role and the summary play no role for the entries. -/
theorem contractValid_confirm {G : CCPG} {seeded : List ℤ} (role summary : Option String)
    (status : String) (hvalid : ContractValid G seeded c) :
    ContractValid G seeded (confirmRoleAndSummary c role summary status).2 := by
  unfold confirmRoleAndSummary
  split
  · exact hvalid
  · split
    · exact ⟨hvalid.clauses, hvalid.nodeReqs, hvalid.nodeGuars, hvalid.noObligationObjs⟩
    · exact ⟨hvalid.clauses, hvalid.nodeReqs, hvalid.nodeGuars, hvalid.noObligationObjs⟩

/-- The notes on the order play no role for the entries. -/
theorem contractValid_reportOrdering {G : CCPG} {seeded : List ℤ} (arguments : Json)
    (hvalid : ContractValid G seeded c) :
    ContractValid G seeded (reportOrdering c arguments).2 := by
  unfold reportOrdering
  split
  · exact hvalid
  · split_ifs
    · exact hvalid
    · split
      · exact hvalid
      · exact ⟨hvalid.clauses, hvalid.nodeReqs, hvalid.nodeGuars, hvalid.noObligationObjs⟩

/-- The legacy tools keep the contract valid. -/
theorem contractValid_legacyTool (hseeded : A.seededObjectIds ≠ [])
    (hvalid : ContractValid A.ccpg A.seededObjectIds c) :
    ContractValid A.ccpg A.seededObjectIds (A.legacyTool c call).2 := by
  unfold legacyTool
  cases call.tool with
  | confirmRoleAndSummary => exact contractValid_confirm _ _ _ hvalid
  | reportClause =>
    -- The only legacy tool that adds an entry.
    dsimp only
    cases hclause : A.reportClause c.threadId call.arguments with
    | error answer => exact hvalid
    | ok entry =>
      obtain ⟨clause, dropped⟩ := entry
      exact hvalid.addClause_iff.mpr (clauseValid_of_reportClause hseeded hclause)
  | reportOrdering => exact contractValid_reportOrdering _ hvalid
  | finalizeContract => exact hvalid
  | addRequirement => exact hvalid
  | addGuarantee => exact hvalid
  | declareNoObligation => exact hvalid

/-- The node-anchored tools keep the contract valid exactly if they name no foreign object. -/
theorem contractValid_l2Tool_iff (hvalid : ContractValid A.ccpg A.seededObjectIds c) :
    ContractValid A.ccpg A.seededObjectIds (A.l2Tool c call).2 ↔ A.NamesSeeded call := by
  unfold l2Tool NamesSeeded
  cases call.tool with
  | confirmRoleAndSummary => exact iff_of_true (contractValid_confirm _ _ _ hvalid) trivial
  | reportClause => exact iff_of_true hvalid trivial
  | reportOrdering => exact iff_of_true hvalid trivial
  | finalizeContract => exact iff_of_true hvalid trivial
  | addRequirement =>
    dsimp only
    -- What is recorded is valid exactly if its object is seeded.
    rcases A.addRequirement_cases call.arguments with ⟨r, hr, haccepted, hiff⟩ | ⟨answer, hr, hno⟩
    · rw [hr]
      show ContractValid _ _ (c.addNodeReq r) ↔ _
      rw [hvalid.addNodeReq_iff, hiff]
      exact ⟨fun h _ => h, fun h => h haccepted⟩
    · rw [hr]
      exact iff_of_true hvalid fun haccepted => absurd haccepted hno
  | addGuarantee =>
    dsimp only
    rcases A.addGuarantee_cases call.arguments with ⟨g, hg, haccepted, hiff⟩ | ⟨answer, hg, hno⟩
    · rw [hg]
      show ContractValid _ _ (c.addNodeGuar g) ↔ _
      rw [hvalid.addNodeGuar_iff, hiff]
      exact ⟨fun h _ => h, fun h => h haccepted⟩
    · rw [hg]
      exact iff_of_true hvalid fun haccepted => absurd haccepted hno
  | declareNoObligation =>
    dsimp only
    cases hoid : integerMember call.arguments "object_id" with
    | none => exact iff_of_true hvalid nofun
    | some oid =>
      show ContractValid _ _ (c.addNoObligation oid) ↔ _
      rw [hvalid.addNoObligation_iff]
      constructor
      · intro hseeded oid' heq
        cases heq
        exact hseeded
      · intro hseeded
        exact hseeded oid rfl

/-- A call is cut off by the cap on the rounds, or reaches its tool. -/
theorem executeTool_cases (A : ContractGeneratorAgent) (s : ContractState) (call : ContractCall) :
    (A.isCounted call.tool = true ∧ A.reportHardCap ≤ s.reportRounds ∧
        (A.executeTool s call).1 = .finish ∧ (A.executeTool s call).2.contract = s.contract) ∨
      ((A.isCounted call.tool = true → s.reportRounds < A.reportHardCap) ∧
        (A.executeTool s call).1 = (A.dispatch s.contract call).1 ∧
        (A.executeTool s call).2.contract = (A.dispatch s.contract call).2) := by
  unfold executeTool
  cases hcounted : A.isCounted call.tool with
  | false => exact .inr ⟨fun h => absurd h Bool.false_ne_true, rfl, rfl⟩
  | true =>
    dsimp only
    rw [if_pos rfl, Bool.true_and]
    split_ifs with hcap
    · exact .inl ⟨rfl, Nat.le_of_lt_succ (of_decide_eq_true hcap), rfl, rfl⟩
    · rw [decide_eq_true_eq, not_lt] at hcap
      exact .inr ⟨fun _ => hcap, rfl, rfl⟩

/-- A call that names a foreign object is counted. -/
theorem isCounted_of_not_namesSeeded (hl2 : A.l2Mode = true) (hno : ¬A.NamesSeeded call) :
    A.isCounted call.tool = true := by
  unfold NamesSeeded at hno
  unfold isCounted
  split at hno
  · next htool => rw [htool, hl2]
  · next htool => rw [htool, hl2]
  · next htool => rw [htool, hl2]
  all_goals exact absurd trivial hno

/-- A call keeps the contract valid exactly if it names no foreign object. -/
theorem contractValid_executeTool_iff {s : ContractState} (hseeded : A.seededObjectIds ≠ [])
    (hvalid : ContractValid A.ccpg A.seededObjectIds s.contract) :
    ContractValid A.ccpg A.seededObjectIds (A.executeTool s call).2.contract ↔
      A.BindsSeeded s call := by
  unfold BindsSeeded
  rcases A.executeTool_cases s call with ⟨-, hcap, -, hcontract⟩ | ⟨hcap, -, hcontract⟩
  · -- Behind the cap nothing is recorded.
    rw [hcontract]
    exact iff_of_true hvalid fun _ hlt => absurd hlt (Nat.not_lt.mpr hcap)
  · rw [hcontract, dispatch]
    cases hl2 : A.l2Mode with
    | false =>
      -- The legacy mode asks for nothing.
      rw [if_neg Bool.false_ne_true]
      exact iff_of_true (contractValid_legacyTool hseeded hvalid)
        fun h => absurd h Bool.false_ne_true
    | true =>
      rw [if_pos rfl, contractValid_l2Tool_iff hvalid]
      constructor
      · intro hnames _ _
        exact hnames
      · intro hbinds
        -- A call that names a foreign object is counted, so it came before the cap.
        by_contra hno
        exact hno (hbinds rfl (hcap (isCounted_of_not_namesSeeded hl2 hno)))

/-! ### Errors -/

/-- A recorded entry is no error. -/
theorem isError_clauseRecorded (dropped clausesSoFar : ℕ) :
    (clauseRecorded dropped clausesSoFar).isError = false := by
  unfold clauseRecorded
  split_ifs
  · rfl
  · rfl

theorem isError_requirementRecorded (form : String) (invalid : List NodeId) (n : ℕ) :
    (requirementRecorded form invalid n).isError = false := by
  unfold requirementRecorded idsMember
  split_ifs
  · rfl
  · rfl

theorem isError_guaranteeRecorded (form : String) (invalid : List NodeId) (n : ℕ) :
    (guaranteeRecorded form invalid n).isError = false := by
  unfold guaranteeRecorded idsMember
  split_ifs
  · rfl
  · rfl

/-- A legacy tool that answers with an error changes nothing. -/
theorem legacyTool_unchanged (htool : call.tool ≠ .confirmRoleAndSummary)
    (herror : (A.legacyTool c call).1.isError = true) : (A.legacyTool c call).2 = c := by
  unfold legacyTool at herror ⊢
  cases hname : call.tool with
  | confirmRoleAndSummary => exact absurd hname htool
  | reportClause =>
    rw [hname] at herror
    dsimp only at herror ⊢
    cases hclause : A.reportClause c.threadId call.arguments with
    | error answer => rfl
    | ok entry =>
      -- A recorded clause is not answered with an error.
      rw [hclause] at herror
      exact absurd herror (by simp [isError_clauseRecorded])
  | reportOrdering =>
    rw [hname] at herror
    dsimp only at herror ⊢
    unfold reportOrdering at herror ⊢
    split at herror
    · rfl
    · split_ifs at herror ⊢
      · rfl
      · split at herror
        · rfl
        · exact absurd herror Bool.false_ne_true
  | finalizeContract => rfl
  | addRequirement => rfl
  | addGuarantee => rfl
  | declareNoObligation => rfl

/-- A node-anchored tool that answers with an error changes nothing. -/
theorem l2Tool_unchanged (htool : call.tool ≠ .confirmRoleAndSummary)
    (herror : (A.l2Tool c call).1.isError = true) : (A.l2Tool c call).2 = c := by
  unfold l2Tool at herror ⊢
  cases hname : call.tool with
  | confirmRoleAndSummary => exact absurd hname htool
  | addRequirement =>
    rw [hname] at herror
    dsimp only at herror ⊢
    -- The answer of a recorded requirement is no error.
    cases hr : A.addRequirement call.arguments with
    | error answer => rfl
    | ok r =>
      rw [hr] at herror
      exact absurd herror (by simp [isError_requirementRecorded])
  | addGuarantee =>
    rw [hname] at herror
    dsimp only at herror ⊢
    cases hg : A.addGuarantee call.arguments with
    | error answer => rfl
    | ok g =>
      rw [hg] at herror
      exact absurd herror (by simp [isError_guaranteeRecorded])
  | declareNoObligation =>
    rw [hname] at herror
    dsimp only at herror ⊢
    cases hoid : integerMember call.arguments "object_id" with
    | none => rfl
    | some oid =>
      rw [hoid] at herror
      exact absurd herror Bool.false_ne_true
  | finalizeContract => rfl
  | reportClause => rfl
  | reportOrdering => rfl

/-- A call that is answered with an error changes nothing. -/
theorem executeTool_unchanged {s : ContractState} (htool : call.tool ≠ .confirmRoleAndSummary)
    (herror : (A.executeTool s call).1.isError = true) :
    (A.executeTool s call).2.contract = s.contract := by
  rcases A.executeTool_cases s call with ⟨-, -, -, hcontract⟩ | ⟨-, hanswer, hcontract⟩
  · exact hcontract
  · rw [hcontract]
    rw [hanswer] at herror
    unfold dispatch at herror ⊢
    split_ifs at herror ⊢
    · exact l2Tool_unchanged htool herror
    · exact legacyTool_unchanged htool herror

end ContractGeneratorAgent

/-! ### The contract along a run -/

/-- A run of `generateContractForThread` with an object among the seeded ones. -/
structure SeededSession extends ContractGeneratorAgent where
  /-- The thread. -/
  threadId : Tid
  /-- Its main function. -/
  entryPointFunctionId : NodeId
  /-- Some object is seeded. -/
  seeded : toContractGeneratorAgent.seededObjectIds ≠ []

namespace SeededSession

/-- The contract with nothing but its identity. -/
def start (S : SeededSession) : ContractState where
  contract := { threadId := S.threadId, entryPointFunctionId := S.entryPointFunctionId }

/-- The contract is valid. -/
def Valid (S : SeededSession) (s : ContractState) : Prop :=
  ContractValid S.ccpg S.seededObjectIds s.contract

/-- Along every sequence of calls the contract is valid exactly as long as no node-anchored call
that is recorded names a foreign object, and a call that is answered with an error leaves the
contract as it was. -/
theorem contractValid_iff (S : SeededSession) (trace : List ContractCall) :
    (Always S.step S.Valid S.start trace ↔ Meets S.step S.BindsSeeded S.start trace) ∧
      ∀ s call, call.tool ≠ .confirmRoleAndSummary → (S.executeTool s call).1.isError = true →
        (S.executeTool s call).2.contract = s.contract := by
  refine ⟨always_iff_meets (fun s hvalid => hvalid) ?_ ?_ ⟨nofun, nofun, nofun, nofun⟩,
    fun s call => ContractGeneratorAgent.executeTool_unchanged⟩
  · intro s call s' hvalid hstep hbinds
    cases hstep
    exact (ContractGeneratorAgent.contractValid_executeTool_iff S.seeded hvalid).mpr hbinds
  · intro s call s' hvalid hstep hforeign hvalid'
    cases hstep
    exact hforeign
      ((ContractGeneratorAgent.contractValid_executeTool_iff S.seeded hvalid).mp hvalid')

/-! ### A foreign object -/

/-- A session in the node-anchored mode with one object, in a graph with one node. -/
def oneObject : SeededSession where
  ccpg := .ofNodes [1] (fun _ => .dummy) fun _ => false
  l2Mode := true
  objectIds := [0]
  touchedObjects := [some []]
  threadId := 1
  entryPointFunctionId := 0
  seeded := by decide

/-- A requirement about an object that the session was not given. -/
def foreignRequirement : ContractCall where
  tool := .addRequirement
  arguments := .obj [("a_nodes", .arr [.int 1]), ("form", .str "MustBeAtomic"),
    ("object_id", .int 7)]

/-- The requirement that is recorded. -/
def recordedRequirement : ConcurrencyContract.NodeReq where
  form := "MustBeAtomic"
  a := [1]
  b := []
  objectId := 7
  note := ""

/-- The requirement is recorded, although only the object 0 is seeded. -/
theorem foreignRequirement_recorded :
    ¬Always oneObject.step oneObject.Valid oneObject.start [foreignRequirement] := by
  intro halways
  have hvalid : oneObject.Valid (oneObject.executeTool oneObject.start foreignRequirement).2 :=
    (halways.2 _ rfl).head
  have hrecorded : recordedRequirement ∈
      (oneObject.executeTool oneObject.start foreignRequirement).2.contract.nodeReqs := by
    decide +kernel
  have hanchored : Anchored [0] 7 := (hvalid.nodeReqs _ hrecorded).object
  exact absurd hanchored (by decide)

end SeededSession

end Lace.LLM
