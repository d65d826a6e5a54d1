import Lace.Library.Machine
import Lace.LLM.Detector

/-!
# The rules a detection run confirms

What the list `confirmed_hypotheses` promises along every sequence of tool calls, and which rule
calls break the promise: those that give no bug condition, and those of a two-site category that
name fewer than two roles. They pass all checks of `instantiate_rule`.

## Main definitions

* `RulesValid`: what the list of confirmed rules promises;
* `Accepts`: a rule call passes every check;
* `InstantiateRuleArgs.WellPosed`: the call gives a condition, and two roles where it needs them.

## Main results

* `confirmed_executeTool`: a call adds the rule it accepts, and changes nothing else;
* `rulesValid_iff`: a run keeps the promise exactly if the rules it accepts are well posed.
-/

namespace Lace.LLM

open Library

/-- The answer reports an error: it has an `error` key, or reading the arguments threw. -/
def ToolResult.isError : ToolResult → Bool
  | .error _ => true
  | .exception => true
  | .structuralRejection _ => true
  | .gateRefused .. => true
  | _ => false

/-- The call gives at least one condition, and at least two roles if its category needs two
sites. -/
def InstantiateRuleArgs.WellPosed (args : InstantiateRuleArgs) : Prop :=
  args.bugCondition ≠ some [] ∧
    (args.mechanism.any Detector.requiresTwoSites → args.roles.all fun roles => 2 ≤ roles.length)

instance (args : InstantiateRuleArgs) : Decidable args.WellPosed :=
  inferInstanceAs (Decidable (_ ∧ _))

namespace Detector

/-- The category of a rule and its nodes in increasing order. -/
def ruleKey (h : Hypothesis) : String × List NodeId :=
  (h.bugCategory, (h.nodes.map Prod.snd).insertionSort (· ≤ ·))

/-- The canonical name is made from the category and the nodes. -/
theorem fingerprint_congr {h h' : Hypothesis} (hkey : ruleKey h = ruleKey h') :
    fingerprint h = fingerprint h' := by
  obtain ⟨hcategory, hnodes⟩ := Prod.mk.inj hkey
  rw [fingerprint, fingerprint, hcategory, hnodes]

variable (D : Detector)

/-- What a confirmed rule promises. -/
structure SoundRule (h : Hypothesis) : Prop where
  /-- It has a constraint. -/
  constraints : h.constraints ≠ []
  /-- All its constraints are satisfied. -/
  confirmed : ∃ verifier, D.verifier = some verifier ∧ verifier.Confirms h
  /-- Two sites are two nodes. -/
  twoSites : requiresTwoSites h.bugCategory → 2 ≤ (h.nodes.map Prod.snd).dedup.length

/-- What the list of confirmed rules promises. -/
structure RulesValid (ctx : DetectorContext) : Prop where
  /-- Every rule in it is sound. -/
  sound : ∀ h ∈ ctx.confirmedHypotheses, D.SoundRule h
  /-- No two rules have the same category and nodes. -/
  distinct : (ctx.confirmedHypotheses.map ruleKey).Nodup
  /-- It is not longer than the budget of accepted rules. -/
  capped : ctx.confirmedHypotheses.length ≤ kMaxAcceptedRules

/-- One tool call as a step of the context. -/
def step (ctx : DetectorContext) (call : ToolCall) : Option DetectorContext :=
  some (D.executeTool ctx call).2

/-- A call for the rule `h` passes the gate, is verified, and is no duplicate. -/
structure Passes (ctx : DetectorContext) (args : InstantiateRuleArgs) (h : Hypothesis) : Prop where
  /-- It is a well-formed call for the rule. -/
  rule : D.ruleHypothesis args = .ok h
  /-- The context was analysed, and the analysis lets rules be instantiated. -/
  allowed : (priorAnalysis ctx args.contextId).any ContextAnalysis.allows
  /-- The verifier confirms the rule. -/
  confirmed : ∃ verifier, D.verifier = some verifier ∧ verifier.Confirms h
  /-- No accepted rule has its canonical name. -/
  fresh : fingerprint h ∉ ctx.acceptedFingerprints

/-- The call comes to the gate and passes all checks from there on. -/
def Accepts (ctx : DetectorContext) (args : InstantiateRuleArgs) (h : Hypothesis) : Prop :=
  D.ReachesGate ctx args ∧ D.Passes ctx args h

/-- The guard of a step: a rule that is accepted is well posed. -/
def AcceptsWellPosed (ctx : DetectorContext) (call : ToolCall) : Prop :=
  ∀ args h, call = .instantiateRule args → D.Accepts ctx args h → args.WellPosed

variable {D} {ctx : DetectorContext} {args : InstantiateRuleArgs} {call : ToolCall} {h : Hypothesis}

/-! ### What a rule call says about its rule -/

theorem length_of_mapM {ε α β : Type} {f : α → Except ε β} {l : List α} {l' : List β}
    (hl : l.mapM f = .ok l') : l'.length = l.length := by
  induction l generalizing l' with
  | nil =>
    cases hl
    rfl
  | cons a l ih =>
    rw [List.mapM_cons] at hl
    cases ha : f a with
    | error e => simp [ha, bind, Except.bind] at hl
    | ok b =>
      cases hrest : l.mapM f with
      | error e => simp [ha, hrest, bind, Except.bind] at hl
      | ok bs =>
        rw [ha, hrest] at hl
        cases hl
        simp [ih hrest]

/-- What is known of the rule of a well-formed call. -/
structure RuleOf (args : InstantiateRuleArgs) (h : Hypothesis) : Prop where
  /-- Its category is the mechanism. -/
  mechanism : args.mechanism = some h.bugCategory
  /-- It has a node for each role. -/
  roles : ∃ roles, args.roles = some roles ∧ h.nodes.length = roles.length
  /-- It has a constraint for each bug condition. -/
  bugCondition : ∃ conditions, args.bugCondition = some conditions ∧
    h.constraints.length = conditions.length
  /-- Two roles of a two-site rule are not all on one node. -/
  sites : requiresTwoSites h.bugCategory → 2 ≤ h.nodes.length →
    2 ≤ (h.nodes.map Prod.snd).dedup.length

theorem ruleOf_ruleHypothesis (hrule : D.ruleHypothesis args = .ok h) : RuleOf args h := by
  unfold ruleHypothesis at hrule
  cases hid : args.ruleId with
  | none => simp [hid] at hrule
  | some ruleId =>
    cases hmechanism : args.mechanism with
    | none => simp [hid, hmechanism] at hrule
    | some mechanism =>
      cases hroles : args.roles with
      | none => simp [hid, hmechanism, hroles] at hrule
      | some roles =>
        cases hnodes : roles.mapM D.roleNode with
        | error e => simp [hid, hmechanism, hroles, hnodes, bind, Except.bind] at hrule
        | ok nodes =>
          cases hcondition : args.bugCondition with
          | none => simp [hid, hmechanism, hroles, hnodes, hcondition, bind, Except.bind] at hrule
          | some conditions =>
            cases hconstraints : conditions.mapM readConstraint with
            | error e =>
              simp [hid, hmechanism, hroles, hnodes, hcondition, hconstraints, bind,
                Except.bind] at hrule
            | ok constraints =>
              simp only [hid, hmechanism, hroles, hnodes, hcondition, hconstraints, bind,
                Except.bind] at hrule
              split_ifs at hrule with hsame
              cases hrule
              -- Every part was read; the two lengths are those of the lists that were mapped.
              refine ⟨hmechanism, ⟨roles, hroles, length_of_mapM hnodes⟩,
                ⟨conditions, hcondition, length_of_mapM hconstraints⟩, fun htwo hlen => ?_⟩
              by_contra hlt
              exact hsame ⟨htwo, hlen, Nat.lt_of_not_le hlt⟩

/-- A confirmed rule is sound exactly if its call was well posed. -/
theorem soundRule_iff (hrule : RuleOf args h)
    (hconfirmed : ∃ verifier, D.verifier = some verifier ∧ verifier.Confirms h) :
    D.SoundRule h ↔ args.WellPosed := by
  obtain ⟨hmechanism, ⟨roles, hroles, hlenroles⟩, ⟨conditions, hcondition, hlen⟩, hsites⟩ := hrule
  -- The hypothesis has as many constraints and roles as the call.
  have hempty : h.constraints ≠ [] ↔ args.bugCondition ≠ some [] := by
    rw [hcondition, ← List.length_pos_iff, hlen, List.length_pos_iff]
    simp
  have hroles2 : args.roles.all (fun roles => 2 ≤ roles.length) = true ↔ 2 ≤ h.nodes.length := by
    rw [hroles, hlenroles]
    simp
  unfold InstantiateRuleArgs.WellPosed
  rw [hroles2, ← hempty, hmechanism, Option.any_some]
  constructor
  · intro hsound
    -- Distinct sites are no more than the roles.
    refine ⟨hsound.constraints, fun htwo => (hsound.twoSites htwo).trans ?_⟩
    calc (h.nodes.map Prod.snd).dedup.length ≤ (h.nodes.map Prod.snd).length :=
          (List.dedup_sublist _).length_le
      _ = h.nodes.length := List.length_map _
  · intro hposed
    exact ⟨hposed.1, hconfirmed, fun htwo => hsites htwo (hposed.2 htwo)⟩

/-! ### What a call does to the list -/

/-- The context with a rule added. -/
def confirm (ctx : DetectorContext) (h : Hypothesis) : DetectorContext :=
  { ctx with
    acceptedFingerprints := fingerprint h :: ctx.acceptedFingerprints
    confirmedHypotheses := ctx.confirmedHypotheses ++ [h] }

/-- The two fields that a confirmed rule changes are those of another context. -/
def SameRules (ctx ctx' : DetectorContext) : Prop :=
  ctx'.confirmedHypotheses = ctx.confirmedHypotheses ∧
    ctx'.acceptedFingerprints = ctx.acceptedFingerprints

/-- `instantiate_rule` behind the budgets: a rule that passes the checks is added, and otherwise
nothing is changed. -/
theorem instantiateRule_cases (ctx : DetectorContext) (args : InstantiateRuleArgs) :
    (∃ h, D.Passes ctx args h ∧ (D.instantiateRule ctx args).2 = confirm ctx h ∧
        (D.instantiateRule ctx args).1.isError = false) ∨
      (∀ h, ¬D.Passes ctx args h) ∧ (D.instantiateRule ctx args).2 = ctx := by
  unfold instantiateRule
  cases hverifier : D.verifier with
  | none =>
    refine .inr ⟨fun h hpass => ?_, rfl⟩
    obtain ⟨V, hV, -⟩ := hpass.confirmed
    simp [hverifier] at hV
  | some verifier =>
    cases hrule : D.ruleHypothesis args with
    | error answer => exact .inr ⟨fun h hpass => by simpa [hrule] using hpass.rule, rfl⟩
    | ok h =>
      -- The call is for no other rule.
      have hsame : ∀ h', D.Passes ctx args h' → h' = h := fun h' hpass =>
        Except.ok.inj (hpass.rule.symm.trans hrule)
      cases hprior : priorAnalysis ctx args.contextId with
      | none =>
        refine .inr ⟨fun h' hpass => ?_, rfl⟩
        simpa [hprior] using hpass.allowed
      | some analysis =>
        cases hallows : analysis.allows with
        | false =>
          refine .inr ⟨fun h' hpass => ?_, by simp [hallows]⟩
          simpa [hprior, hallows] using hpass.allowed
        | true =>
          -- Behind the gate the verifier and the fingerprints decide.
          cases hverify : verifier.verify h with
          | none =>
            refine .inr ⟨fun h' hpass => ?_, by simp [hallows, hverify]⟩
            obtain ⟨V, hV, result, hresult, -⟩ := hpass.confirmed
            rw [hverifier] at hV
            cases hV
            rw [hsame h' hpass, hverify] at hresult
            cases hresult
          | some result =>
            by_cases hall : result.allSatisfied = true
            · by_cases hfresh : fingerprint h ∈ ctx.acceptedFingerprints
              · refine .inr ⟨fun h' hpass => ?_, by simp [hallows, hverify, hall, hfresh]⟩
                exact hpass.fresh (hsame h' hpass ▸ hfresh)
              · refine .inl ⟨h, ⟨hrule, by simp [hprior, hallows],
                  ⟨verifier, hverifier, result, hverify, hall⟩, hfresh⟩, ?_, ?_⟩
                · simp [hallows, hverify, hall, hfresh, confirm]
                · simp [hallows, hverify, hall, hfresh, ToolResult.isError]
            · refine .inr ⟨fun h' hpass => ?_, by simp [hallows, hverify, hall]⟩
              obtain ⟨V, hV, result', hresult, hall'⟩ := hpass.confirmed
              rw [hverifier] at hV
              cases hV
              rw [hsame h' hpass, hverify] at hresult
              cases hresult
              exact hall hall'

/-- Counting a call does not change what a rule call is checked against. -/
theorem passes_count {name : String} :
    D.Passes (ctx.count name) args h ↔ D.Passes ctx args h :=
  ⟨fun hp => ⟨hp.rule, hp.allowed, hp.confirmed, hp.fresh⟩,
    fun hp => ⟨hp.rule, hp.allowed, hp.confirmed, hp.fresh⟩⟩

/-- A call adds the rule it accepts, and is then answered without an error; any other call leaves
the list and the fingerprints alone. -/
theorem confirmed_executeTool (ctx : DetectorContext) (call : ToolCall) :
    (∃ args h, call = .instantiateRule args ∧ D.Accepts ctx args h ∧
        (D.executeTool ctx call).2 = confirm (ctx.count "instantiate_rule") h ∧
        (D.executeTool ctx call).1.isError = false) ∨
      (∀ args h, call = .instantiateRule args → ¬D.Accepts ctx args h) ∧
        SameRules ctx (D.executeTool ctx call).2 := by
  unfold executeTool
  -- The agent has stopped, or has as many rules as it may: nothing is dispatched.
  split_ifs with hstop hcap
  · refine .inr ⟨?_, rfl, rfl⟩
    rintro args h rfl ⟨⟨hrunning, -⟩, -⟩
    simp [hrunning] at hstop
  · refine .inr ⟨?_, rfl, rfl⟩
    rintro args h rfl ⟨⟨-, haccepted, -⟩, -⟩
    exact absurd haccepted (Nat.not_lt.mpr hcap)
  · split
    · rename_i reason hbudget
      refine .inr ⟨?_, rfl, rfl⟩
      rintro args h rfl ⟨⟨-, -, hwithin, -⟩, -⟩
      rw [ToolCall.name] at hbudget
      simp [hwithin] at hbudget
    · rename_i hbudget
      cases call with
      | finishDetection => exact .inr ⟨by rintro args h ⟨⟩, rfl, rfl⟩
      | analyzeContext args =>
        refine .inr ⟨by rintro args' h ⟨⟩, ?_⟩
        dsimp only [dispatch, analyzeContext]
        split
        · exact ⟨rfl, rfl⟩
        · split
          · exact ⟨rfl, rfl⟩
          · exact ⟨rfl, rfl⟩
      | other name => exact .inr ⟨by rintro args h ⟨⟩, rfl, rfl⟩
      | instantiateRule args =>
        have hrunning : ctx.stopRequested = false := by simpa using hstop
        -- The tool accepts the rule exactly if the rule passes its checks.
        rcases D.instantiateRule_cases (ctx.count "instantiate_rule") args with
          ⟨h, hpass, hctx, hanswer⟩ | ⟨hno, hctx⟩
        · refine .inl ⟨args, h, rfl, ⟨⟨hrunning, Nat.lt_of_not_le hcap, hbudget, ?_, ?_⟩,
            passes_count.mp hpass⟩, hctx, hanswer⟩
          · obtain ⟨V, hV, -⟩ := hpass.confirmed
            simp [hV]
          · simp [hpass.rule, Except.toOption]
        · refine .inr ⟨?_, ?_⟩
          · rintro args' h hcall ⟨-, hpass⟩
            cases hcall
            exact hno h (passes_count.mpr hpass)
          · show SameRules ctx (D.instantiateRule (ctx.count "instantiate_rule") args).2
            rw [hctx]
            exact ⟨rfl, rfl⟩

/-- A call that reports an error leaves the list unchanged. -/
theorem confirmed_of_isError (herror : (D.executeTool ctx call).1.isError) :
    (D.executeTool ctx call).2.confirmedHypotheses = ctx.confirmedHypotheses := by
  rcases D.confirmed_executeTool ctx call with ⟨args, h, -, -, -, hanswer⟩ | ⟨-, hsame, -⟩
  · rw [hanswer] at herror
    cases herror
  · exact hsame

/-! ### The list along a run -/

/-- The invariant of a run: the promise, and the fingerprints are those of the list. -/
structure RulesInv (D : Detector) (ctx : DetectorContext) : Prop where
  /-- Every rule of the list is sound. -/
  sound : ∀ h ∈ ctx.confirmedHypotheses, D.SoundRule h
  /-- The accepted fingerprints are those of the list, the latest first. -/
  fingerprints : ctx.acceptedFingerprints = (ctx.confirmedHypotheses.map fingerprint).reverse
  /-- None occurs twice. -/
  fresh : ctx.acceptedFingerprints.Nodup
  /-- The list is within its budget. -/
  capped : ctx.confirmedHypotheses.length ≤ kMaxAcceptedRules

theorem RulesInv.rulesValid (hinv : RulesInv D ctx) : D.RulesValid ctx := by
  refine ⟨hinv.sound, ?_, hinv.capped⟩
  -- Rules with one key would have one fingerprint.
  have hfingerprints : (ctx.confirmedHypotheses.map fingerprint).Nodup := by
    rw [← List.nodup_reverse, ← hinv.fingerprints]
    exact hinv.fresh
  rw [List.nodup_map_iff_inj_on hfingerprints.of_map]
  intro h hh h' hh' hkey
  exact List.inj_on_of_nodup_map hfingerprints hh hh' (fingerprint_congr hkey)

theorem rulesInv_start : RulesInv D {} :=
  ⟨nofun, rfl, List.nodup_nil, Nat.zero_le _⟩

/-- A step whose accepted rule is well posed keeps the invariant. -/
theorem RulesInv.step (hinv : RulesInv D ctx) (hposed : D.AcceptsWellPosed ctx call) :
    RulesInv D (D.executeTool ctx call).2 := by
  rcases D.confirmed_executeTool ctx call with ⟨args, h, hcall, haccepts, hctx, -⟩ |
    ⟨-, hconfirmed, haccepted⟩
  · -- A rule is added: it is sound, its fingerprint is new and there is room for it.
    have hpass := haccepts.2
    have hlt := haccepts.1.2.1
    have hsound : D.SoundRule h :=
      (soundRule_iff (ruleOf_ruleHypothesis hpass.rule) hpass.confirmed).mpr
        (hposed args h hcall haccepts)
    rw [hctx]
    -- The list grows at its end, the fingerprints at their front.
    refine ⟨fun h' hh' => ?_, ?_, List.nodup_cons.mpr ⟨hpass.fresh, hinv.fresh⟩, ?_⟩
    · rcases List.mem_append.mp hh' with hh' | hh'
      · exact hinv.sound h' hh'
      · obtain rfl := List.mem_singleton.mp hh'
        exact hsound
    · show fingerprint h :: ctx.acceptedFingerprints =
        ((ctx.confirmedHypotheses ++ [h]).map fingerprint).reverse
      rw [hinv.fingerprints, List.map_append, List.reverse_append]
      rfl
    · show (ctx.confirmedHypotheses ++ [h]).length ≤ kMaxAcceptedRules
      rw [List.length_append]
      exact hlt
  · -- The list and the fingerprints are left alone.
    refine ⟨?_, ?_, ?_, ?_⟩
    · rw [hconfirmed]
      exact hinv.sound
    · rw [haccepted, hconfirmed]
      exact hinv.fingerprints
    · rw [haccepted]
      exact hinv.fresh
    · rw [hconfirmed]
      exact hinv.capped

/-- A step that accepts an ill-posed rule loses the promise. -/
theorem not_rulesValid_step (hposed : ¬D.AcceptsWellPosed ctx call) :
    ¬D.RulesValid (D.executeTool ctx call).2 := by
  unfold AcceptsWellPosed at hposed
  push Not at hposed
  obtain ⟨args, h, rfl, haccepts, hill⟩ := hposed
  rcases D.confirmed_executeTool ctx (.instantiateRule args) with
    ⟨args', h', hcall, haccepts', hctx, -⟩ | ⟨hno, -⟩
  · cases hcall
    intro hvalid
    have hmem : h' ∈ (D.executeTool ctx (.instantiateRule args)).2.confirmedHypotheses := by
      rw [hctx]
      exact List.mem_append_right _ (List.mem_singleton_self h')
    exact hill ((soundRule_iff (ruleOf_ruleHypothesis haccepts'.2.rule)
      haccepts'.2.confirmed).mp (hvalid.sound h' hmem))
  · exact absurd haccepts (hno args h rfl)

/-- Along every sequence of tool calls the list of confirmed rules keeps its promise exactly as
long as the rules that pass all other checks are well posed, and no call that reports an error
changes the list. -/
theorem rulesValid_iff (D : Detector) (trace : List ToolCall) :
    (Always D.step D.RulesValid {} trace ↔ Meets D.step D.AcceptsWellPosed {} trace) ∧
      ∀ ctx call, (D.executeTool ctx call).1.isError →
        (D.executeTool ctx call).2.confirmedHypotheses = ctx.confirmedHypotheses := by
  refine ⟨always_iff_meets (fun ctx hinv => RulesInv.rulesValid hinv) ?_ ?_ rulesInv_start,
    fun ctx call => confirmed_of_isError⟩
  · rintro ctx call ctx' hinv hstep hposed
    cases hstep
    exact hinv.step hposed
  · rintro ctx call ctx' - hstep hposed
    cases hstep
    exact not_rulesValid_step hposed

/-! ### Rules without evidence -/

/-- A rule call with an empty bug condition. -/
def noCondition : InstantiateRuleArgs :=
  { ruleArgs with bugCondition := some [] }

/-- A double free with a single role. -/
def oneSite : InstantiateRuleArgs where
  ruleId := some "r2"
  mechanism := some "double_free"
  contextId := "c1"
  roles := some [("free", .int 1)]
  bugCondition := some [some ⟨"not_lock_protected", [("node", .str "free")]⟩]

/-- After the analysis of the context both calls are accepted: the first rule has no constraint,
and the second one, a double free, has one node. -/
theorem unsupported_rules :
    ¬oneObject.RulesValid
        (oneObject.run {} [visit "INSTANTIATE_RULE", .instantiateRule noCondition]) ∧
      ¬oneObject.RulesValid
        (oneObject.run {} [visit "INSTANTIATE_RULE", .instantiateRule oneSite]) := by
  constructor
  · intro hvalid
    have hrule : (⟨"r1", "order_violation", [("a", 1), ("b", 2)], []⟩ : Hypothesis) ∈
        (oneObject.run {} [visit "INSTANTIATE_RULE",
          .instantiateRule noCondition]).confirmedHypotheses := by
      decide +kernel
    exact (hvalid.sound _ hrule).constraints rfl
  · intro hvalid
    have hrule : (⟨"r2", "double_free", [("free", 1)],
        [⟨"not_lock_protected", [("node", .str "free")]⟩]⟩ : Hypothesis) ∈
        (oneObject.run {} [visit "INSTANTIATE_RULE",
          .instantiateRule oneSite]).confirmedHypotheses := by
      decide +kernel
    have htwo := (hvalid.sound _ hrule).twoSites (by decide +kernel)
    exact absurd htwo (by decide)

end Detector

end Lace.LLM
