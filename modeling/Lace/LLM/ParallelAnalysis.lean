import Lace.LLM.Interleaving

/-!
# The rules of the parallel-analysis agent

`ParallelAnalysisAgent` builds a rule in four steps: `start_rule`, `nominate_node_for_role` for each
required role, `propose_rule_for_confirmation` and `confirm_rule`. Whether all roles are bound is
looked at by the proposal alone, and the confirmation does not ask for a proposal.

## Main definitions

* `RulePattern`, `Rule`: the six kinds of rules, and a rule with its nominated nodes;
* `ParallelAnalysisAgent.executeTool`: one tool call;
* `RuleSession`: the context, with the states in which rules were proposed;
* `Rule.Complete`: all required roles are bound to nodes of the graph;
* `ParallelAnalysisAgent.RulesProposed`: what the recorded rules promise.

## Main results

* `Rule.complete_of_isReady`: a rule that is ready is complete;
* `ParallelAnalysisAgent.rulesProposed_iff`: when the promise is kept along a run.
-/

namespace Lace.LLM

open Library

/-! ### Rules -/

/-- The subclasses of `Rule`. -/
inductive RulePattern
  | toctou | dataRace | useAfterFree | doubleFree | nullPointerDereference | deadlock
  deriving DecidableEq, Repr

namespace RulePattern

/-- `get_pattern_type`: the name by which a model asks for a kind of rule. -/
def patternType : RulePattern → String
  | .toctou => "TOCTOU"
  | .dataRace => "DataRace"
  | .useAfterFree => "USE_AFTER_FREE"
  | .doubleFree => "DOUBLE_FREE"
  | .nullPointerDereference => "NULL_POINTER_DEREFERENCE"
  | .deadlock => "DEADLOCK"

/-- `get_required_roles`: the roles that a rule needs nodes for. -/
def requiredRoles : RulePattern → List String
  | .toctou => ["state_check_operation", "state_modify_operation", "resource_use_operation"]
  | .dataRace => ["write_operation", "read_operation"]
  | .useAfterFree => ["free_operation", "use_operation"]
  | .doubleFree => ["first_free_operation", "second_free_operation"]
  | .nullPointerDereference => ["null_assignment_operation", "dereference_operation"]
  | .deadlock =>
    ["thread1_first_lock", "thread1_second_lock", "thread2_first_lock", "thread2_second_lock"]

/-- `m_supported_rules`: the kinds of rules that can be built. -/
def supportedRules : List RulePattern :=
  [.toctou, .dataRace, .useAfterFree, .doubleFree, .nullPointerDereference, .deadlock]

/-- `m_supported_rules.find`: the kind of rule with a name. -/
def find (patternType : String) : Option RulePattern :=
  supportedRules.find? fun pattern => pattern.patternType = patternType

/-- The heading of the structured part of the summary. -/
def summaryHeading : RulePattern → String
  | .toctou =>
    "--- Structured TOCTOU Rule from Selected Nodes ---\n" ++
      "A check-then-use sequence was identified that could be vulnerable to a race condition.\n"
  | .dataRace =>
    "--- Structured High-Impact Data Race Rule from Selected Nodes ---\n" ++
      "A potential high-impact data race was identified due to concurrent, unsynchronized " ++
      "access.\n"
  | .useAfterFree =>
    "--- Structured Use-After-Free Rule from Selected Nodes ---\n" ++
      "A potential Use-After-Free vulnerability was identified.\n"
  | .doubleFree =>
    "--- Structured Double-Free Rule from Selected Nodes ---\n" ++
      "A potential Double-Free vulnerability was identified.\n"
  | .nullPointerDereference =>
    "--- Structured Null-Pointer-Dereference Rule from Selected Nodes ---\n" ++
      "A potential Null-Pointer-Dereference vulnerability was identified.\n"
  | .deadlock =>
    "--- Structured Deadlock Rule from Selected Nodes ---\n" ++
      "A potential Deadlock vulnerability was identified.\n"

/-- The text in front of each node of the summary, with the role of the node. -/
def summaryLines : RulePattern → List (String × String)
  | .toctou =>
    [("- The CHECK operation is: ", "state_check_operation"),
      ("- The concurrent MODIFY operation is: ", "state_modify_operation"),
      ("- The subsequent USE operation is: ", "resource_use_operation")]
  | .dataRace =>
    [("- The WRITE operation (potential corruption source) is: ", "write_operation"),
      ("- The concurrent READ operation (observes inconsistent state) is: ", "read_operation")]
  | .useAfterFree =>
    [("- The FREE operation is: ", "free_operation"),
      ("- The subsequent USE operation is: ", "use_operation")]
  | .doubleFree =>
    [("- The FIRST FREE operation is: ", "first_free_operation"),
      ("- The SECOND FREE operation is: ", "second_free_operation")]
  | .nullPointerDereference =>
    [("- The NULL ASSIGNMENT operation is: ", "null_assignment_operation"),
      ("- The DEREFERENCE operation is: ", "dereference_operation")]
  | .deadlock =>
    [("Thread 1 acquires lock 1: ", "thread1_first_lock"),
      ("Then Thread 1 tries to acquire lock 2: ", "thread1_second_lock"),
      ("Thread 2 acquires lock 2: ", "thread2_first_lock"),
      ("Then Thread 2 tries to acquire lock 1: ", "thread2_second_lock")]

/-- The question at the end of the summary. -/
def summaryQuestion : RulePattern → String
  | .toctou =>
    "QUESTION: Does this structured description accurately and semantically match your original " ++
      "summary?"
  | .dataRace =>
    "QUESTION: Does this structured description, which implies a high potential for harm, " ++
      "accurately and semantically match your original summary?"
  | .useAfterFree | .doubleFree | .nullPointerDereference | .deadlock =>
    "QUESTION: Does this structured description accurately match your original summary?"

end RulePattern

/-- `Rule`: a rule that is being built, or is built. -/
structure Rule where
  /-- The subclass. -/
  pattern : RulePattern
  /-- `m_rule_id`. -/
  ruleId : String
  /-- `m_shared_object_type`. -/
  sharedObjectType : String
  /-- `m_summary`. -/
  summary : String
  /-- `nominated_nodes`. -/
  nominatedNodes : List Site := []
  deriving DecidableEq, Repr

namespace Rule

variable (rule : Rule)

/-- `is_ready`. -/
def isReady : Bool :=
  rule.pattern.requiredRoles.all fun role => (rule.nominatedNodes.lookup role).isSome

/-- `set_node_for_role`: a role gets a node; the last one counts. -/
def setNodeForRole (role : String) (nodeId : NodeId) : Rule :=
  { rule with nominatedNodes := setNode rule.nominatedNodes (role, nodeId) }

/-- `get_node_for_role`: the node of a role, or -1. -/
def getNodeForRole (role : String) : NodeId := (rule.nominatedNodes.lookup role).getD (-1)

/-- All required roles are bound to nodes of the graph. -/
def Complete (G : CCPG) : Prop :=
  ∀ role ∈ rule.pattern.requiredRoles,
    ∃ n, rule.nominatedNodes.lookup role = some n ∧ n ∈ G.nodes

/-- The nominated nodes are in the graph. -/
def NodesExist (G : CCPG) : Prop :=
  ∀ role n, rule.nominatedNodes.lookup role = some n → n ∈ G.nodes

end Rule

/-! ### The tools -/

/-- The tools that build a rule. -/
inductive RuleTool
  | startRule | nominateNodeForRole | proposeRuleForConfirmation | confirmRule
  deriving DecidableEq, Repr

/-- A tool call. -/
structure RuleCall where
  /-- The tool. -/
  tool : RuleTool
  /-- Its arguments. -/
  arguments : Json

/-- The answer to a call. -/
inductive RuleAnswer
  | reply (text : String)
  /-- Reading the arguments threw. -/
  | throws
  deriving DecidableEq, Repr

/-- `RuleBuildingContext`, with the rules of the thread pair. -/
structure RuleBuildingContext where
  /-- `current_rule`. -/
  currentRule : Option Rule := none
  /-- `current_rule_summary`. -/
  currentRuleSummary : String := ""
  /-- `temporal_rules` of the analysis of the pair. -/
  temporalRules : List Rule := []
  deriving DecidableEq, Repr

/-- An answer written as the text of an object with one member. -/
def replyMember (key text : String) : RuleAnswer :=
  .reply ("\x7b\"" ++ key ++ "\": \"" ++ text ++ "\"\x7d")

/-- `ParallelAnalysisAgent`: what its tools read. -/
structure ParallelAnalysisAgent where
  /-- `ccpg_`. -/
  ccpg : CCPG
  /-- The code of a node. -/
  nodeCode : NodeId → String
  /-- The location of a node. -/
  nodeLoc : NodeId → String

namespace ParallelAnalysisAgent

variable (A : ParallelAnalysisAgent)

/-- `get_node_info` of the summaries: code and location of the node of a role. -/
def nodeInfo (rule : Rule) (role : String) : String × String :=
  match (rule.nominatedNodes.lookup role).bind A.ccpg.getNodeByID with
  | some n => (A.nodeCode n, A.nodeLoc n)
  | none => ("[Node not nominated]", "[Location unknown]")

/-- `generate_confirmation_summary`: what a model is shown before it confirms a rule. -/
def generateConfirmationSummary (rule : Rule) (originalSummary : String) : String :=
  "--- Your Original Summary ---\n\"" ++ originalSummary ++ "\"\n\n" ++
    rule.pattern.summaryHeading ++
    String.join (rule.pattern.summaryLines.map fun line =>
      let info := A.nodeInfo rule line.2
      line.1 ++ "`" ++ info.1 ++ "` (at " ++ info.2 ++ ")\n") ++
    "\n" ++ rule.pattern.summaryQuestion

/-- `start_rule`: the tool that starts a rule, when none is being built. -/
def startRule (ctx : RuleBuildingContext) (arguments : Json) : RuleAnswer × RuleBuildingContext :=
  -- A rule that is being built has to be confirmed or discarded first.
  if ctx.currentRule.isSome then
    (replyMember "error" "A rule is already being built. You must finalize or discard it first.",
      ctx)
  else
    match ["rule_id", "pattern_type", "shared_object_type", "rule_summary"].find?
        (!arguments.contains ·) with
    | some key =>
      (replyMember "error" ("Missing required parameter '" ++ key ++ "' in 'start_rule' call."), ctx)
    | none =>
      match (arguments.field "pattern_type").bind Json.getString,
          (arguments.field "rule_id").bind Json.getString,
          (arguments.field "shared_object_type").bind Json.getString,
          (arguments.field "rule_summary").bind Json.getString with
      | some patternType, some ruleId, some objectType, some summary =>
        -- The summary is stored before the pattern is looked up.
        let ctx := { ctx with currentRuleSummary := summary }
        match RulePattern.find patternType with
        | none => (replyMember "error" ("Unsupported pattern_type: '" ++ patternType ++ "'."), ctx)
        | some pattern =>
          (.reply (Json.dump (.obj
              [("required_roles", .arr (pattern.requiredRoles.map .str)),
                ("status", .str ("Rule initiated for pattern '" ++ patternType ++ "'."))])),
            { ctx with
              currentRule := some { pattern, ruleId, sharedObjectType := objectType, summary } })
      | _, _, _, _ => (.throws, ctx)

/-- `nominate_node_for_role`: the tool that binds a role of the rule to a node. -/
def nominateNodeForRole (ctx : RuleBuildingContext) (arguments : Json) :
    RuleAnswer × RuleBuildingContext :=
  match ctx.currentRule with
  | none => (replyMember "error" "No active rule. You must call 'start_rule' first.", ctx)
  | some rule =>
    match (arguments.field "role").bind Json.getString,
        (arguments.field "node_id").bind Json.getInt with
    | some role, some nodeId =>
      -- Only required roles can be bound, and only to nodes of the graph.
      if role ∉ rule.pattern.requiredRoles then
        (replyMember "error" ("Invalid role '" ++ role ++ "'. For a '" ++ rule.pattern.patternType ++
          "' rule, role must be one of: " ++
          String.join (rule.pattern.requiredRoles.map fun r => "'" ++ r ++ "', ")), ctx)
      else if (A.ccpg.getNodeByID nodeId).isNone then
        (replyMember "error" ("Node with ID " ++ toString nodeId ++ " not found."), ctx)
      else
        (replyMember "status" ("Node " ++ toString nodeId ++ " nominated for role '" ++ role ++
          "'. Nominate other required nodes or call 'propose_rule_for_confirmation'."),
          { ctx with currentRule := some (rule.setNodeForRole role nodeId) })
    | _, _ => (.throws, ctx)

/-- `propose_rule_for_confirmation`: the tool that shows a rule that has all its nodes. -/
def proposeRuleForConfirmation (ctx : RuleBuildingContext) : RuleAnswer × RuleBuildingContext :=
  match ctx.currentRule with
  | none => (replyMember "error" "No active rule to propose.", ctx)
  | some rule =>
    if rule.isReady then
      (.reply (Json.dump (.obj [("confirmation_request",
        .str (A.generateConfirmationSummary rule ctx.currentRuleSummary))])), ctx)
    else
      (replyMember "error" "Rule is not ready. Not all required roles have been filled.", ctx)

/-- `confirm_rule`: the tool that records the rule, or gives it up. -/
def confirmRule (ctx : RuleBuildingContext) (arguments : Json) :
    RuleAnswer × RuleBuildingContext :=
  match ctx.currentRule with
  | none => (replyMember "error" "No active rule to confirm.", ctx)
  | some rule =>
    match (arguments.field "is_semantically_correct").bind Json.getBool with
    | none => (.throws, ctx)
    -- Neither `isReady` nor a proposal is asked for.
    | some true =>
      (replyMember "status" ("Rule confirmed and recorded. You can start a new rule or finish " ++
        "analysis."),
        { currentRule := none
          currentRuleSummary := ""
          temporalRules := ctx.temporalRules ++ [rule] })
    | some false =>
      (replyMember "status" ("Rule discarded based on your review. You can start a new rule or " ++
        "finish analysis."),
        { ctx with currentRule := none, currentRuleSummary := "" })

/-- `ParallelAnalysisAgent::execute_tool` for the tools that build a rule. -/
def executeTool (ctx : RuleBuildingContext) (call : RuleCall) : RuleAnswer × RuleBuildingContext :=
  match call.tool with
  | .startRule => startRule ctx call.arguments
  | .nominateNodeForRole => A.nominateNodeForRole ctx call.arguments
  | .proposeRuleForConfirmation => A.proposeRuleForConfirmation ctx
  | .confirmRule => confirmRule ctx call.arguments

end ParallelAnalysisAgent

/-! ### What the recorded rules promise -/

/-- The context, with the states in which rules were proposed. -/
structure RuleSession where
  /-- The context. -/
  ctx : RuleBuildingContext := {}
  /-- The rule that is being built, in the states in which it was ready and was proposed. -/
  proposed : List Rule := []
  /-- The same for the recorded rules, in the order of `temporalRules`. -/
  proposals : List (List Rule) := []

/-- The rule that a call to `confirm_rule` decides about, and the decision. -/
def decision (ctx : RuleBuildingContext) (arguments : Json) : Option (Rule × Bool) :=
  ctx.currentRule.bind fun rule =>
    ((arguments.field "is_semantically_correct").bind Json.getBool).map fun correct =>
      (rule, correct)

namespace ParallelAnalysisAgent

variable (A : ParallelAnalysisAgent)

/-- Every recorded rule is complete, and was proposed in the state in which it is recorded. -/
def RulesProposed (s : RuleSession) : Prop :=
  List.Forall₂ (fun rule proposed => rule.Complete A.ccpg ∧ rule ∈ proposed) s.ctx.temporalRules
    s.proposals

/-- One call as a step of the session. -/
def step (s : RuleSession) (call : RuleCall) : Option RuleSession :=
  let ctx := (A.executeTool s.ctx call).2
  match call.tool with
  | .startRule | .nominateNodeForRole => some { s with ctx }
  | .proposeRuleForConfirmation =>
    some { s with ctx, proposed := (s.ctx.currentRule.filter Rule.isReady).toList ++ s.proposed }
  | .confirmRule =>
    match decision s.ctx call.arguments with
    | none => some { s with ctx }
    -- The next rule starts without proposals.
    | some (_, true) => some { ctx, proposed := [], proposals := s.proposals ++ [s.proposed] }
    | some (_, false) => some { ctx, proposed := [], proposals := s.proposals }

/-- The guard of a step: a rule that is confirmed was proposed with the nodes it then has. -/
def ConfirmsProposed (s : RuleSession) (call : RuleCall) : Prop :=
  call.tool = .confirmRule →
    ∀ rule, decision s.ctx call.arguments = some (rule, true) → rule ∈ s.proposed

end ParallelAnalysisAgent

namespace Rule

variable {G : CCPG} {rule : Rule}

/-! ### Complete rules -/

/-- A rule that is ready is complete, if its nodes are in the graph. -/
theorem complete_of_isReady (hready : rule.isReady = true) (hnodes : rule.NodesExist G) :
    rule.Complete G := by
  intro role hrole
  obtain ⟨n, hn⟩ := Option.isSome_iff_exists.mp (List.all_eq_true.mp hready role hrole)
  exact ⟨n, hn, hnodes role n hn⟩

/-- Binding a role to a node of the graph keeps the nodes in the graph. -/
theorem NodesExist.setNodeForRole (hnodes : rule.NodesExist G) {role : String} {nodeId : NodeId}
    (hnode : nodeId ∈ G.nodes) : (rule.setNodeForRole role nodeId).NodesExist G := by
  intro role' n hn
  dsimp only [Rule.setNodeForRole] at hn
  rw [lookup_setNode] at hn
  split_ifs at hn
  · cases hn
    exact hnode
  · exact hnodes role' n hn

end Rule

namespace ParallelAnalysisAgent

variable {A : ParallelAnalysisAgent} {ctx : RuleBuildingContext} {arguments : Json}
  {s s' : RuleSession} {call : RuleCall}

/-! ### The four tools -/

/-- Starting a rule records none, and a rule that is started has no nodes yet. -/
theorem startRule_cases (ctx : RuleBuildingContext) (arguments : Json) :
    (startRule ctx arguments).2.temporalRules = ctx.temporalRules ∧
      ((startRule ctx arguments).2.currentRule = ctx.currentRule ∨
        ctx.currentRule = none ∧
          ∃ rule, (startRule ctx arguments).2.currentRule = some rule ∧
            rule.nominatedNodes = []) := by
  unfold startRule
  split_ifs with hcurrent
  · exact ⟨rfl, .inl rfl⟩
  · have hnone : ctx.currentRule = none := Option.not_isSome_iff_eq_none.mp hcurrent
    split
    · exact ⟨rfl, .inl rfl⟩
    · split
      · dsimp only
        split
        · exact ⟨rfl, .inl rfl⟩
        · exact ⟨rfl, .inr ⟨hnone, _, rfl, rfl⟩⟩
      · exact ⟨rfl, .inl rfl⟩

/-- A nomination changes nothing, or binds a role of the rule to a node of the graph. -/
theorem nominate_cases (A : ParallelAnalysisAgent) (ctx : RuleBuildingContext) (arguments : Json) :
    (A.nominateNodeForRole ctx arguments).2 = ctx ∨
      ∃ rule role nodeId, ctx.currentRule = some rule ∧ nodeId ∈ A.ccpg.nodes ∧
        (A.nominateNodeForRole ctx arguments).2 =
          { ctx with currentRule := some (rule.setNodeForRole role nodeId) } := by
  unfold nominateNodeForRole
  cases hcurrent : ctx.currentRule with
  | none => exact .inl rfl
  | some rule =>
    dsimp only
    split
    · next role nodeId _ _ =>
      -- The role must belong to the pattern, and the node to the graph.
      by_cases hrole : role ∈ rule.pattern.requiredRoles
      · rw [if_neg (not_not.mpr hrole)]
        split_ifs with hnode
        · exact .inl rfl
        · rw [Option.isNone_iff_eq_none, ← Option.not_isSome_iff_eq_none, not_not,
            CCPG.isSome_getNodeByID] at hnode
          exact .inr ⟨rule, role, nodeId, rfl, hnode, rfl⟩
      · rw [if_pos hrole]
        exact .inl rfl
    · exact .inl rfl

/-- A proposal changes nothing. -/
theorem proposeRuleForConfirmation_ctx (A : ParallelAnalysisAgent) (ctx : RuleBuildingContext) :
    (A.proposeRuleForConfirmation ctx).2 = ctx := by
  unfold proposeRuleForConfirmation
  split
  · rfl
  · split_ifs
    · rfl
    · rfl

/-- What a confirmation does follows from its decision. -/
theorem confirmRule_ctx (ctx : RuleBuildingContext) (arguments : Json) :
    (confirmRule ctx arguments).2 =
      match decision ctx arguments with
      | none => ctx
      | some (rule, true) =>
        { currentRule := none, currentRuleSummary := "",
          temporalRules := ctx.temporalRules ++ [rule] }
      | some (_, false) => { ctx with currentRule := none, currentRuleSummary := "" } := by
  unfold confirmRule decision
  cases ctx.currentRule with
  | none => rfl
  | some rule =>
    cases (arguments.field "is_semantically_correct").bind Json.getBool with
    | none => rfl
    | some correct => cases correct <;> rfl

/-! ### The rules along a run -/

/-- The invariant of a session. -/
structure RulesInv (A : ParallelAnalysisAgent) (s : RuleSession) : Prop where
  /-- The nodes of the rule that is being built are in the graph. -/
  current : ∀ rule, s.ctx.currentRule = some rule → rule.NodesExist A.ccpg
  /-- A rule was complete when it was proposed. -/
  proposed : ∀ rule ∈ s.proposed, rule.Complete A.ccpg
  /-- The recorded rules keep the promise. -/
  recorded : A.RulesProposed s

theorem rulesInv_start (A : ParallelAnalysisAgent) : RulesInv A {} := ⟨nofun, nofun, .nil⟩

/-- A confirmation that records a rule keeps the promise exactly if the rule was proposed with the
nodes it has. -/
theorem rulesProposed_concat_iff (hinv : RulesInv A s) {rule : Rule} {ctx : RuleBuildingContext}
    (hrules : ctx.temporalRules = s.ctx.temporalRules ++ [rule]) :
    A.RulesProposed { ctx, proposed := [], proposals := s.proposals ++ [s.proposed] } ↔
      rule ∈ s.proposed := by
  unfold RulesProposed
  rw [hrules]
  constructor
  · intro hall
    -- The last rule belongs to the last list of proposals.
    have hlast := List.forall₂_reverse_iff.mpr hall
    rw [List.reverse_append, List.reverse_append] at hlast
    exact (List.forall₂_cons.mp hlast).1.2
  · intro hmem
    exact List.rel_append hinv.recorded (.cons ⟨hinv.proposed rule hmem, hmem⟩ .nil)

/-- Starting a rule keeps the invariant: there is no new rule, or one without nodes. -/
theorem RulesInv.startRule (hinv : RulesInv A s) (arguments : Json) :
    RulesInv A { s with ctx := (ParallelAnalysisAgent.startRule s.ctx arguments).2 } := by
  obtain ⟨hrules, hcurrent⟩ := startRule_cases s.ctx arguments
  refine ⟨fun rule hrule => ?_, hinv.proposed, ?_⟩
  · dsimp only at hrule
    rcases hcurrent with hcurrent | ⟨-, rule', hcurrent, hnodes⟩
    · rw [hcurrent] at hrule
      exact hinv.current rule hrule
    · rw [hcurrent] at hrule
      cases hrule
      intro role n hn
      rw [hnodes] at hn
      cases hn
  · unfold RulesProposed
    dsimp only
    rw [hrules]
    exact hinv.recorded

/-- A nomination keeps the invariant: the node is in the graph. -/
theorem RulesInv.nominate (hinv : RulesInv A s) (arguments : Json) :
    RulesInv A { s with ctx := (A.nominateNodeForRole s.ctx arguments).2 } := by
  rcases A.nominate_cases s.ctx arguments with hctx | ⟨rule, role, nodeId, hrule, hnode, hctx⟩
  · rw [hctx]
    exact ⟨hinv.current, hinv.proposed, hinv.recorded⟩
  · rw [hctx]
    refine ⟨fun rule' hrule' => ?_, hinv.proposed, hinv.recorded⟩
    cases hrule'
    exact (hinv.current rule hrule).setNodeForRole hnode

/-- A proposal keeps the invariant: it is of a rule that is ready. -/
theorem RulesInv.propose (hinv : RulesInv A s) :
    RulesInv A { s with proposed := (s.ctx.currentRule.filter Rule.isReady).toList ++ s.proposed } := by
  refine ⟨hinv.current, fun rule hrule => ?_, hinv.recorded⟩
  rcases List.mem_append.mp hrule with hrule | hrule
  · rw [Option.mem_toList, Option.filter_eq_some_iff] at hrule
    exact Rule.complete_of_isReady hrule.2 (hinv.current rule hrule.1)
  · exact hinv.proposed rule hrule

/-- A step that confirms a proposed rule keeps the invariant. -/
theorem RulesInv.step (hinv : RulesInv A s) (hstep : A.step s call = some s')
    (hproposed : ConfirmsProposed s call) : RulesInv A s' := by
  unfold ParallelAnalysisAgent.step executeTool at hstep
  -- Only `confirm_rule` records; the other tools work on the current rule.
  cases htool : call.tool with
  | startRule =>
    rw [htool] at hstep
    cases hstep
    exact hinv.startRule call.arguments
  | nominateNodeForRole =>
    rw [htool] at hstep
    cases hstep
    exact hinv.nominate call.arguments
  | proposeRuleForConfirmation =>
    rw [htool] at hstep
    cases hstep
    rw [A.proposeRuleForConfirmation_ctx s.ctx]
    exact hinv.propose
  | confirmRule =>
    rw [htool] at hstep
    dsimp only at hstep
    rw [confirmRule_ctx] at hstep
    -- Without a rule to decide on nothing is recorded.
    cases hdecision : decision s.ctx call.arguments with
    | none =>
      rw [hdecision] at hstep
      cases hstep
      exact ⟨hinv.current, hinv.proposed, hinv.recorded⟩
    | some outcome =>
      obtain ⟨rule, correct⟩ := outcome
      rw [hdecision] at hstep
      -- A rule that is confirmed is recorded as it was proposed.
      cases correct with
      | false =>
        cases hstep
        exact ⟨nofun, nofun, hinv.recorded⟩
      | true =>
        cases hstep
        exact ⟨nofun, nofun,
          (rulesProposed_concat_iff hinv rfl).mpr (hproposed htool rule hdecision)⟩

/-- A step that confirms a rule which was not proposed as it is loses the promise. -/
theorem not_rulesProposed_step (hinv : RulesInv A s) (hstep : A.step s call = some s')
    (hunproposed : ¬ConfirmsProposed s call) : ¬A.RulesProposed s' := by
  unfold ConfirmsProposed at hunproposed
  push Not at hunproposed
  obtain ⟨htool, rule, hdecision, hmem⟩ := hunproposed
  unfold ParallelAnalysisAgent.step executeTool at hstep
  rw [htool] at hstep
  dsimp only at hstep
  rw [confirmRule_ctx, hdecision] at hstep
  cases hstep
  exact fun hrules => hmem ((rulesProposed_concat_iff hinv rfl).mp hrules)

/-- Along every sequence of calls the recorded rules are complete, and were proposed in the state
in which they are recorded, exactly as long as every rule that is confirmed was proposed with the
nodes it then has. -/
theorem rulesProposed_iff (A : ParallelAnalysisAgent) (trace : List RuleCall) :
    Always A.step A.RulesProposed {} trace ↔ Meets A.step ConfirmsProposed {} trace := by
  refine always_iff_meets (fun s hinv => hinv.recorded) ?_ ?_ (rulesInv_start A)
  · intro s call s' hinv hstep hproposed
    exact hinv.step hstep hproposed
  · intro s call s' hinv hstep hunproposed
    exact not_rulesProposed_step hinv hstep hunproposed

/-! ### A rule that is confirmed at once -/

/-- An agent on a graph without nodes. -/
def emptyGraphAgent : ParallelAnalysisAgent where
  ccpg := .ofNodes [] (fun _ => .dummy) fun _ => false
  nodeCode _ := ""
  nodeLoc _ := ""

/-- A rule is started and confirmed. -/
def startAndConfirm : List RuleCall :=
  [{ tool := .startRule
     arguments := .obj [("pattern_type", .str "TOCTOU"), ("rule_id", .str "STATUS_TOCTOU"),
       ("rule_summary", .str "the status is checked and then used"),
       ("shared_object_type", .str "struct task")] },
    { tool := .confirmRule, arguments := .obj [("is_semantically_correct", .bool true)] }]

/-- The rule that is recorded. -/
def statusRule : Rule where
  pattern := .toctou
  ruleId := "STATUS_TOCTOU"
  sharedObjectType := "struct task"
  summary := "the status is checked and then used"

/-- The rule is recorded, although none of its roles is bound and it was never proposed. -/
theorem startAndConfirm_recorded :
    ¬Always emptyGraphAgent.step emptyGraphAgent.RulesProposed {} startAndConfirm := by
  intro halways
  have hrules : List.Forall₂ (fun rule proposed =>
      rule.Complete emptyGraphAgent.ccpg ∧ rule ∈ proposed) [statusRule] [[]] :=
    ((halways.2 _ rfl).2 _ rfl).head
  exact absurd (List.forall₂_cons.mp hrules).1.2 List.not_mem_nil

end ParallelAnalysisAgent

end Lace.LLM
