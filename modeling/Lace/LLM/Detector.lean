import Mathlib.Data.List.Sort
import Lace.Query.Consistency

/-!
# The detector's tools

`DetectorAgent::execute_tool`: the budgets in front of every tool, the recording of context
analyses, and the rule instantiation with its gate on a prior analysis of the same context. The
tools that only read the surface or the graph are not told apart.

## Main definitions

* `DetectorContext`: the state of a detection run;
* `Detector.analyzeContext`, `Detector.instantiateRule`, `Detector.executeTool`: the tools;
* `Detector.recordings`: the analyses that a sequence of tool calls records.

## Main results

* `Detector.passesGate_iff`: the gate consults the first analysis recorded for a context;
* `Detector.gate_latest_iff`: so it agrees with the latest one exactly if the two agree.
-/

namespace Lace.LLM

/-- The arguments of `analyze_context`. -/
structure AnalyzeContextArgs where
  /-- `object_index`. -/
  objectIndex : ℤ := -1
  /-- `pattern_adaptation`, if present: whether it is an object. -/
  patternAdaptation : Option Bool := none
  /-- `context_id`. -/
  contextId : String := ""
  /-- `decision`. -/
  decision : String := ""
  /-- `mechanism`. -/
  mechanism : String := ""
  deriving DecidableEq, Repr

/-- A record of `context_analyses`: the arguments with the name of the object. -/
structure ContextAnalysis where
  /-- The arguments. -/
  args : AnalyzeContextArgs
  /-- `object_name`. -/
  objectName : String
  deriving DecidableEq, Repr

/-- The analysis lets rules be instantiated. -/
def ContextAnalysis.allows (analysis : ContextAnalysis) : Bool :=
  analysis.args.decision = "INSTANTIATE_RULE"

/-- The arguments of `instantiate_rule`. -/
structure InstantiateRuleArgs where
  /-- `rule_id`. -/
  ruleId : Option String
  /-- `mechanism`. -/
  mechanism : Option String
  /-- `context_id`. -/
  contextId : String := ""
  /-- `roles`, where it is an object. -/
  roles : Option (List (String × JsonValue))
  /-- `bug_condition`, where it is an array; an element that does not read as a constraint is
  `none`. -/
  bugCondition : Option (List (Option VerificationConstraint))
  deriving DecidableEq, Repr

/-- A tool call of the model. -/
inductive ToolCall
  | finishDetection
  | analyzeContext (args : AnalyzeContextArgs)
  | instantiateRule (args : InstantiateRuleArgs)
  /-- A tool that records no analysis and no rule. -/
  | other (name : String)
  deriving DecidableEq, Repr

/-- The name under which a call is counted. -/
def ToolCall.name : ToolCall → String
  | .finishDetection => "finish_detection"
  | .analyzeContext _ => "analyze_context"
  | .instantiateRule _ => "instantiate_rule"
  | .other name => name

/-- What a tool answers. -/
inductive ToolResult
  /-- `finish`, which ends the conversation. -/
  | finish
  /-- An error with its text. -/
  | error (text : String)
  /-- Reading an argument threw. -/
  | exception
  /-- An analysis was recorded. -/
  | recorded (analysis : ContextAnalysis) (nextStep : String)
  /-- All roles of the rule are one node. -/
  | structuralRejection (bugCategory : String)
  /-- `missing_or_non_instantiating_context_analysis`. -/
  | gateRefused (ruleId contextId : String) (hasPriorAnalysis : Bool) (reason : String)
  /-- The verifier's feedback. -/
  | feedback (ruleId contextId : String) (result : HypothesisVerifier.VerificationResult)
      (isDuplicate : Bool)
  /-- The answer of a tool that records nothing. -/
  | other
  deriving DecidableEq, Repr

/-- `DetectorContext`: the fields that are read here. -/
structure DetectorContext where
  /-- `confirmed_hypotheses`. -/
  confirmedHypotheses : List Hypothesis := []
  /-- `context_analyses`. -/
  contextAnalyses : List ContextAnalysis := []
  /-- `accepted_fingerprints`. -/
  acceptedFingerprints : List String := []
  /-- `total_tool_calls`. -/
  totalToolCalls : ℕ := 0
  /-- `tool_counts`. -/
  toolCounts : String → ℕ := fun _ => 0
  /-- `stop_requested`. -/
  stopRequested : Bool := false
  /-- `stop_reason`. -/
  stopReason : String := ""
  /-- `object_decisions`. -/
  objectDecisions : ℤ → Option String := fun _ => none
  /-- `object_mechanisms`. -/
  objectMechanisms : ℤ → Option String := fun _ => none

/-- `kMaxDetectorToolCalls`. -/
def kMaxDetectorToolCalls : ℕ := 320

/-- `kMaxAcceptedRules`: how many rules a detection accepts. -/
def kMaxAcceptedRules : ℕ := 12

/-- The budgets of single tools, with the texts of their stop reasons. -/
def toolBudgets : List (String × ℕ × String) :=
  [("get_vulnerability_surface", 6, "surface reread calls exceeded "),
    ("get_object_details", 64, "object detail calls exceeded "),
    ("get_function_code", 96, "function-code calls exceeded "),
    ("get_function_ops", 96, "function-op calls exceeded "),
    ("get_lock_protection", 96, "lock-protection calls exceeded "),
    ("analyze_context", 96, "context-analysis calls exceeded "),
    ("instantiate_rule", 32, "rule-instantiation calls exceeded ")]

namespace DetectorContext

variable (ctx : DetectorContext)

/-- `setStop`: the detection is told to end, with a reason. -/
def setStop (reason : String) : DetectorContext :=
  { ctx with stopRequested := true, stopReason := reason }

/-- The call is counted. -/
def count (name : String) : DetectorContext :=
  { ctx with
    totalToolCalls := ctx.totalToolCalls + 1
    toolCounts := Function.update ctx.toolCounts name (ctx.toolCounts name + 1) }

/-- The budget that a counted call exceeds, if any. -/
def overBudget (name : String) : Option String :=
  if ctx.totalToolCalls > kMaxDetectorToolCalls then
    some ("total tool calls exceeded " ++ toString kMaxDetectorToolCalls)
  else
    (toolBudgets.find? fun b => b.1 = name && ctx.toolCounts name > b.2.1).map fun b =>
      b.2.2 ++ toString b.2.1

end DetectorContext

/-- What `DetectorAgent` reads besides its context. -/
structure Detector where
  /-- The names of `surface->shared_objects`. -/
  sharedObjects : List String
  /-- `ccpg_`. -/
  ccpg : CCPG
  /-- `verifier`, if it was set. -/
  verifier : Option HypothesisVerifier

namespace Detector

variable (D : Detector)

/-- `analyze_context`. -/
def analyzeContext (ctx : DetectorContext) (args : AnalyzeContextArgs) :
    ToolResult × DetectorContext :=
  let idx := args.objectIndex
  if idx < 1 ∨ idx > D.sharedObjects.length then
    (.error "Invalid object_index for analyze_context.", ctx)
  else if args.patternAdaptation ≠ some true then
    (.error "pattern_adaptation_required", ctx)
  else
    let analysis : ContextAnalysis :=
      { args := args, objectName := D.sharedObjects.getD (idx - 1).toNat "" }
    (.recorded analysis <|
        if analysis.allows then
          "Call instantiate_rule with semantic roles and bug_condition predicates."
        else "Continue evidence gathering or inspect another context.",
      { ctx with
        contextAnalyses := ctx.contextAnalyses ++ [analysis]
        objectDecisions := Function.update ctx.objectDecisions idx (some args.decision)
        objectMechanisms := Function.update ctx.objectMechanisms idx (some args.mechanism) })

/-- The node of one role; an error if the value is no integer or no node has the id. -/
def roleNode (role : String × JsonValue) : Except ToolResult (String × NodeId) :=
  match role.2 with
  | .int nid =>
    if (D.ccpg.getNodeByID nid).isSome then .ok (role.1, nid)
    else .error (.error ("Node ID " ++ toString nid ++ " not found in CCPG."))
  | _ => .error (.error ("Node ID for role '" ++ role.1 ++ "' must be an integer."))

/-- One element of `bug_condition`. -/
def readConstraint : Option VerificationConstraint → Except ToolResult VerificationConstraint
  | none => .error .exception
  | some c =>
    if c.predicate = "" then .error (.error "Each constraint must have a 'predicate' field.")
    else .ok c

/-- `std::transform` with `std::tolower`. -/
def tolower (s : String) : String :=
  String.ofList (s.toList.map Char.toLower)

/-- `requires_two_sites`: a rule of this category needs two program points. -/
def requiresTwoSites (bugCategory : String) : Bool :=
  tolower bugCategory ∈
    ["double_free", "double-free", "uaf", "use_after_free", "use-after-free", "toctou",
      "time_of_check", "data_race", "data-race"]

/-- What `instantiate_rule` checks before its gate: the hypothesis of the rule, or the answer that
rejects it. -/
def ruleHypothesis (args : InstantiateRuleArgs) : Except ToolResult Hypothesis := do
  let some ruleId := args.ruleId | .error .exception
  let some mechanism := args.mechanism | .error .exception
  let some roles := args.roles
    | .error (.error "roles must be an object mapping semantic role names to node IDs.")
  let nodes ← roles.mapM D.roleNode
  let some bugCondition := args.bugCondition
    | .error (.error "bug_condition must be an array of \x7bpredicate, args\x7d objects.")
  let constraints ← bugCondition.mapM readConstraint
  if requiresTwoSites mechanism ∧ 2 ≤ nodes.length ∧ (nodes.map Prod.snd).dedup.length < 2 then
    .error (.structuralRejection mechanism)
  .ok { id := ruleId, bugCategory := mechanism, nodes := nodes, constraints := constraints }

/-- The record the gate consults: the loop over `context_analyses` stops at the first one of the
context. -/
def priorAnalysis (ctx : DetectorContext) (contextId : String) : Option ContextAnalysis :=
  ctx.contextAnalyses.find? fun analysis => analysis.args.contextId = contextId

/-- The canonical name of a rule: its category and its nodes in increasing order. -/
def fingerprint (h : Hypothesis) : String :=
  h.bugCategory ++ "|" ++
    String.intercalate "," (((h.nodes.map Prod.snd).insertionSort (· ≤ ·)).map toString)

/-- `instantiate_rule`: the tool that binds a rule to nodes and has it verified. -/
def instantiateRule (ctx : DetectorContext) (args : InstantiateRuleArgs) :
    ToolResult × DetectorContext :=
  match D.verifier with
  | none => (.error "Verifier not initialized.", ctx)
  | some verifier =>
    match D.ruleHypothesis args with
    | .error answer => (answer, ctx)
    | .ok h =>
      match priorAnalysis ctx args.contextId with
      | none =>
        (.gateRefused h.id args.contextId false
          "instantiate_rule requires a prior analyze_context call for the same context_id.", ctx)
      | some analysis =>
        if analysis.allows then
          match verifier.verify h with
          | none => (.exception, ctx)
          | some result =>
            if result.allSatisfied then
              if fingerprint h ∈ ctx.acceptedFingerprints then
                (.feedback h.id args.contextId result true, ctx)
              else
                (.feedback h.id args.contextId result false,
                  { ctx with
                    acceptedFingerprints := fingerprint h :: ctx.acceptedFingerprints
                    confirmedHypotheses := ctx.confirmedHypotheses ++ [h] })
            else (.feedback h.id args.contextId result false, ctx)
        else
          (.gateRefused h.id args.contextId true
            ("The prior analyze_context decision for this context_id was not " ++
              "INSTANTIATE_RULE."), ctx)

/-- The tool itself, after the budgets. -/
def dispatch (ctx : DetectorContext) : ToolCall → ToolResult × DetectorContext
  | .analyzeContext args => D.analyzeContext ctx args
  | .instantiateRule args => D.instantiateRule ctx args
  | .finishDetection => (.finish, ctx)
  | .other _ => (.other, ctx)

/-- `DetectorAgent::execute_tool`: one tool call of a detection, which does nothing after the
end. -/
def executeTool (ctx : DetectorContext) (call : ToolCall) : ToolResult × DetectorContext :=
  if call = .finishDetection ∨ ctx.stopRequested then (.finish, ctx)
  else if kMaxAcceptedRules ≤ ctx.confirmedHypotheses.length then
    (.finish,
      ctx.setStop "accepted-rule budget reached; preserve the confirmed rules and stop")
  else
    match (ctx.count call.name).overBudget call.name with
    | some reason =>
      (.finish, (ctx.count call.name).setStop ("detector budget reached: " ++ reason))
    | none => D.dispatch (ctx.count call.name) call

/-- The context after a sequence of tool calls. -/
def run (ctx : DetectorContext) : List ToolCall → DetectorContext
  | [] => ctx
  | call :: trace => run (D.executeTool ctx call).2 trace

end Detector

/-- The analysis an answer records. -/
def ToolResult.recording : ToolResult → List ContextAnalysis
  | .recorded analysis _ => [analysis]
  | _ => []

/-- The gate refused the rule. -/
def ToolResult.isGateRefused : ToolResult → Bool
  | .gateRefused .. => true
  | _ => false

namespace Detector

variable (D : Detector)

/-- The analyses that a sequence of tool calls records, oldest first. -/
def recordings (ctx : DetectorContext) : List ToolCall → List ContextAnalysis
  | [] => []
  | call :: trace =>
    (D.executeTool ctx call).1.recording ++ recordings (D.executeTool ctx call).2 trace

/-- Among the recorded analyses, the ones of a context. -/
def analysesOf (recorded : List ContextAnalysis) (contextId : String) : List ContextAnalysis :=
  recorded.filter fun analysis => analysis.args.contextId = contextId

/-- A well-formed rule call within the budgets: it comes to the gate. -/
def ReachesGate (ctx : DetectorContext) (args : InstantiateRuleArgs) : Prop :=
  ctx.stopRequested = false ∧ ctx.confirmedHypotheses.length < kMaxAcceptedRules ∧
    (ctx.count "instantiate_rule").overBudget "instantiate_rule" = none ∧
    D.verifier.isSome = true ∧ (D.ruleHypothesis args).toOption.isSome = true

instance (ctx : DetectorContext) (args : InstantiateRuleArgs) :
    Decidable (D.ReachesGate ctx args) :=
  inferInstanceAs (Decidable (_ ∧ _))

variable {D} {ctx : DetectorContext} {args : InstantiateRuleArgs}

/-! ### What a call leaves in the context -/

/-- The answers that reject a rule before the gate: they neither record an analysis nor come from
the gate. -/
def IsRejection (answer : ToolResult) : Prop :=
  answer.recording = [] ∧ answer.isGateRefused = false

theorem isRejection_of_roleNode {role : String × JsonValue} {answer : ToolResult}
    (h : D.roleNode role = .error answer) : IsRejection answer := by
  unfold roleNode at h
  split at h
  · split_ifs at h
    cases h
    exact ⟨rfl, rfl⟩
  · cases h
    exact ⟨rfl, rfl⟩

theorem isRejection_of_readConstraint {c : Option VerificationConstraint} {answer : ToolResult}
    (h : readConstraint c = .error answer) : IsRejection answer := by
  unfold readConstraint at h
  split at h
  · cases h
    exact ⟨rfl, rfl⟩
  · split_ifs at h
    cases h
    exact ⟨rfl, rfl⟩

/-- Every error of a computation that may fail has a property. -/
def ErrorsMeet {ε α : Type} (P : ε → Prop) (x : Except ε α) : Prop :=
  ∀ e, x = .error e → P e

theorem ErrorsMeet.ok {ε α : Type} {P : ε → Prop} {a : α} : ErrorsMeet P (.ok a) :=
  nofun

theorem ErrorsMeet.error {ε α : Type} {P : ε → Prop} {e : ε} (he : P e) :
    ErrorsMeet P (.error e : Except ε α) := by
  intro e' h
  cases h
  exact he

theorem ErrorsMeet.bind {ε α β : Type} {P : ε → Prop} {x : Except ε α} {f : α → Except ε β}
    (hx : ErrorsMeet P x) (hf : ∀ a, ErrorsMeet P (f a)) : ErrorsMeet P (x >>= f) := by
  cases x with
  | error e => exact ErrorsMeet.error (hx e rfl)
  | ok a => exact hf a

/-- The errors of a loop are the errors of its rounds. -/
theorem ErrorsMeet.mapM {ε α β : Type} {P : ε → Prop} {f : α → Except ε β}
    (hf : ∀ a, ErrorsMeet P (f a)) (l : List α) : ErrorsMeet P (l.mapM f) := by
  induction l with
  | nil => exact ErrorsMeet.ok
  | cons a l ih =>
    rw [List.mapM_cons]
    exact (hf a).bind fun b => ih.bind fun bs => ErrorsMeet.ok

theorem errorsMeet_ruleHypothesis : ErrorsMeet IsRejection (D.ruleHypothesis args) := by
  unfold ruleHypothesis
  -- Every way out is one of the texts, or comes from a role or a constraint.
  cases args.ruleId with
  | none => exact ErrorsMeet.error ⟨rfl, rfl⟩
  | some ruleId =>
    cases args.mechanism with
    | none => exact ErrorsMeet.error ⟨rfl, rfl⟩
    | some mechanism =>
      cases args.roles with
      | none => exact ErrorsMeet.error ⟨rfl, rfl⟩
      | some roles =>
        refine (ErrorsMeet.mapM (fun role e => isRejection_of_roleNode) roles).bind fun nodes => ?_
        cases args.bugCondition with
        | none => exact ErrorsMeet.error ⟨rfl, rfl⟩
        | some bugCondition =>
          refine (ErrorsMeet.mapM (fun c e => isRejection_of_readConstraint) bugCondition).bind
            fun constraints => ?_
          split_ifs
          · exact ErrorsMeet.error ⟨rfl, rfl⟩
          · exact ErrorsMeet.ok

/-- `instantiate_rule` leaves the recorded analyses alone, and its answer records none. -/
theorem instantiateRule_recording (ctx : DetectorContext) :
    (D.instantiateRule ctx args).2.contextAnalyses = ctx.contextAnalyses ∧
      (D.instantiateRule ctx args).1.recording = [] := by
  -- The tool returns at its first failed check, and records a rule behind the last one.
  unfold instantiateRule
  split
  · exact ⟨rfl, rfl⟩
  · split
    · rename_i hrule
      exact ⟨rfl, (errorsMeet_ruleHypothesis _ hrule).1⟩
    · split
      · exact ⟨rfl, rfl⟩
      · split
        · split
          · exact ⟨rfl, rfl⟩
          · split
            · split
              · exact ⟨rfl, rfl⟩
              · exact ⟨rfl, rfl⟩
            · exact ⟨rfl, rfl⟩
        · exact ⟨rfl, rfl⟩

theorem contextAnalyses_analyzeContext (ctx : DetectorContext) (args : AnalyzeContextArgs) :
    (D.analyzeContext ctx args).2.contextAnalyses =
      ctx.contextAnalyses ++ (D.analyzeContext ctx args).1.recording := by
  dsimp only [analyzeContext]
  split
  · exact (List.append_nil _).symm
  · split
    · exact (List.append_nil _).symm
    · rfl

/-- A call appends the analysis it records, and only that. -/
theorem contextAnalyses_executeTool (ctx : DetectorContext) (call : ToolCall) :
    (D.executeTool ctx call).2.contextAnalyses =
      ctx.contextAnalyses ++ (D.executeTool ctx call).1.recording := by
  unfold executeTool
  split_ifs
  · exact (List.append_nil _).symm
  · exact (List.append_nil _).symm
  · split
    · exact (List.append_nil _).symm
    · cases call with
      | finishDetection => exact (List.append_nil _).symm
      | analyzeContext args => exact contextAnalyses_analyzeContext (ctx.count _) args
      | instantiateRule args =>
        -- A rule is recorded in a list of its own.
        show (D.instantiateRule (ctx.count "instantiate_rule") args).2.contextAnalyses =
          ctx.contextAnalyses ++
            (D.instantiateRule (ctx.count "instantiate_rule") args).1.recording
        have hnone := @instantiateRule_recording D args (ctx.count "instantiate_rule")
        exact hnone.1.trans (by rw [hnone.2, List.append_nil]; rfl)
      | other name => exact (List.append_nil _).symm

/-- After a sequence of calls the context holds the analyses they recorded, in their order. -/
theorem contextAnalyses_run (ctx : DetectorContext) (trace : List ToolCall) :
    (D.run ctx trace).contextAnalyses = ctx.contextAnalyses ++ D.recordings ctx trace := by
  induction trace generalizing ctx with
  | nil => exact (List.append_nil _).symm
  | cons call trace ih =>
    rw [run, ih, contextAnalyses_executeTool, recordings, List.append_assoc]

/-! ### The gate -/

/-- The answer to a call that comes to the gate is a refusal unless the consulted analysis lets
rules be instantiated. -/
theorem isGateRefused_executeTool (h : D.ReachesGate ctx args) :
    (D.executeTool ctx (.instantiateRule args)).1.isGateRefused =
      !(priorAnalysis ctx args.contextId).any ContextAnalysis.allows := by
  obtain ⟨hrunning, haccepted, hbudget, hverifier, hrule⟩ := h
  obtain ⟨verifier, hverifier⟩ := Option.isSome_iff_exists.mp hverifier
  obtain ⟨rule, hrule⟩ := Option.isSome_iff_exists.mp hrule
  have hrule : D.ruleHypothesis args = .ok rule := by
    cases hr : D.ruleHypothesis args with
    | error e => simp [hr, Except.toOption] at hrule
    | ok rule' =>
      rw [hr] at hrule
      exact congrArg _ (Option.some.inj hrule)
  have hdispatch : (D.executeTool ctx (.instantiateRule args)).1 =
      (D.instantiateRule (ctx.count "instantiate_rule") args).1 := by
    simp [executeTool, hrunning, Nat.not_le.mpr haccepted, ToolCall.name, hbudget, dispatch]
  have hprior : priorAnalysis (ctx.count "instantiate_rule") args.contextId =
      priorAnalysis ctx args.contextId := rfl
  rw [hdispatch]
  simp only [instantiateRule, hverifier, hrule, hprior]
  cases priorAnalysis ctx args.contextId with
  | none => rfl
  | some analysis =>
    cases hallows : analysis.allows with
    | false => simp [hallows, ToolResult.isGateRefused]
    | true =>
      -- No answer behind the gate is a refusal by the gate.
      simp only [if_true, Option.any_some, hallows, Bool.not_true]
      split
      · rfl
      · split
        · split
          · rfl
          · rfl
        · rfl

/-- The gate lets a well-formed call pass if and only if the first analysis recorded for its
context lets rules be instantiated. -/
theorem passesGate_iff {trace : List ToolCall} (h : D.ReachesGate (D.run {} trace) args) :
    (D.executeTool (D.run {} trace) (.instantiateRule args)).1.isGateRefused = false ↔
      (analysesOf (D.recordings {} trace) args.contextId).head?.any ContextAnalysis.allows := by
  have hprior : priorAnalysis (D.run {} trace) args.contextId =
      (analysesOf (D.recordings {} trace) args.contextId).head? := by
    rw [priorAnalysis, contextAnalyses_run, analysesOf, List.head?_filter]
    rfl
  rw [isGateRefused_executeTool h, hprior, Bool.not_eq_false']

/-- Along every sequence of calls the gate follows the most recent analysis of the context exactly
if that one and the first one agree about instantiating rules. -/
theorem gate_latest_iff (D : Detector) (trace : List ToolCall) (args : InstantiateRuleArgs)
    (h : D.ReachesGate (D.run {} trace) args) :
    ((D.executeTool (D.run {} trace) (.instantiateRule args)).1.isGateRefused = false ↔
        (analysesOf (D.recordings {} trace) args.contextId).getLast?.any ContextAnalysis.allows) ↔
      (analysesOf (D.recordings {} trace) args.contextId).head?.any ContextAnalysis.allows =
        (analysesOf (D.recordings {} trace) args.contextId).getLast?.any
          ContextAnalysis.allows := by
  rw [passesGate_iff h]
  exact Bool.eq_iff_iff.symm

/-! ### A context that is visited twice -/

/-- One shared object, and the graph and the verifier of `partlyLocked`. -/
def oneObject : Detector where
  sharedObjects := ["dev"]
  ccpg := HypothesisVerifier.twoPaths
  verifier := some HypothesisVerifier.partlyLocked

/-- An analysis of context `c1` with a decision. -/
def visit (decision : String) : ToolCall :=
  .analyzeContext
    { objectIndex := 1, patternAdaptation := some true, contextId := "c1", decision := decision }

/-- A rule for context `c1`. -/
def ruleArgs : InstantiateRuleArgs where
  ruleId := some "r1"
  mechanism := some "order_violation"
  contextId := "c1"
  roles := some [("a", .int 1), ("b", .int 2)]
  bugCondition := some [some ⟨"hb", [("a", .str "a"), ("b", .str "b")]⟩]

/-- A context that first needs more evidence and is then judged `INSTANTIATE_RULE`. -/
def reconsidered : List ToolCall :=
  [visit "NEED_MORE_EVIDENCE", visit "INSTANTIATE_RULE"]

/-- A context whose judgement `INSTANTIATE_RULE` is withdrawn. -/
def withdrawn : List ToolCall :=
  [visit "INSTANTIATE_RULE", visit "SKIP_WITH_REASON"]

/-- A context that is judged `INSTANTIATE_RULE` twice. -/
def confirmedTwice : List ToolCall :=
  [visit "INSTANTIATE_RULE", visit "INSTANTIATE_RULE"]

/-- The reconsidered context is refused, the withdrawn one accepted. -/
theorem revisited_gate :
    (oneObject.ReachesGate (oneObject.run {} reconsidered) ruleArgs ∧
      (analysesOf (oneObject.recordings {} reconsidered) "c1").getLast?.any
        ContextAnalysis.allows = true ∧
      (oneObject.executeTool (oneObject.run {} reconsidered)
        (.instantiateRule ruleArgs)).1.isGateRefused = true) ∧
    (oneObject.ReachesGate (oneObject.run {} withdrawn) ruleArgs ∧
      (analysesOf (oneObject.recordings {} withdrawn) "c1").getLast?.any
        ContextAnalysis.allows = false ∧
      (oneObject.executeTool (oneObject.run {} withdrawn)
        (.instantiateRule ruleArgs)).1.isGateRefused = false) := by
  decide +kernel

/-- For the context that is judged `INSTANTIATE_RULE` twice, the gate follows the latest
analysis. -/
theorem confirmedTwice_gate :
    (oneObject.executeTool (oneObject.run {} confirmedTwice)
        (.instantiateRule ruleArgs)).1.isGateRefused = false ↔
      (analysesOf (oneObject.recordings {} confirmedTwice) "c1").getLast?.any
        ContextAnalysis.allows :=
  (gate_latest_iff oneObject confirmedTwice ruleArgs (by decide +kernel)).mpr (by decide +kernel)

end Detector

end Lace.LLM
