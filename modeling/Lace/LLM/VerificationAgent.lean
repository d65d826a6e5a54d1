import Mathlib.Data.List.Basic
import Mathlib.Tactic.ByContra
import Lace.LLM.Json

/-!
# The verifier agent

`VerificationAgent::execute_tool` in a run of `verifyHypothesis`: the caps on all tool calls and on
repeated ones in front of every tool, and the verdict that decides about the hypothesis. The
exemption from the caps goes by the name `finalize_verdict`; the verdict tool is called
`submit_verdict`.

## Main definitions

* `VerificationAgent.executeTool`: one tool call;
* `VerificationAgent.runTools`: the calls of a session, and the state they leave;
* `VerificationAgent.verifyHypothesis`: whether the hypothesis is kept.

## Main results

* `VerificationAgent.fromHandler_iff`: when a verdict reaches its handler;
* `VerificationAgent.keepsVerdicts_iff`: no verdict is lost exactly if none comes behind a cap.
-/

namespace Lace.LLM

/-- A tool call of the verifier. -/
structure VerifierCall where
  /-- Name of the tool. -/
  toolName : String
  /-- Its arguments. -/
  arguments : Json

/-- What a tool answers the verifier. -/
inductive VerifierAnswer
  /-- `finish`, which ends the session. -/
  | finish
  /-- The warning about a repeated call, with the number of repetitions. -/
  | duplicateCall (call : VerifierCall) (duplicateCount remaining : ℕ)
  /-- The verdict is recorded. -/
  | recorded
  /-- The verdict is turned into one to keep. -/
  | downgraded
  /-- The answer of any other tool. -/
  | evidence (text : String)
  /-- Reading the arguments threw, which ends the session. -/
  | throws

/-- The members of `VerificationAgent` that a run of `verifyHypothesis` resets. -/
structure VerifierState where
  /-- `verdict_`. -/
  verdict : Bool := false
  /-- `has_verdict_`. -/
  hasVerdict : Bool := false
  /-- `seen_tool_calls_`. -/
  seenToolCalls : List String := []
  /-- `dup_call_count_`. -/
  dupCallCount : ℕ := 0
  /-- `total_tool_calls_`. -/
  totalToolCalls : ℕ := 0

/-- `MAX_DUP_CALLS`. -/
def maxDupCalls : ℕ := 5

/-- `MAX_TOTAL_TOOL_CALLS`: how many counted calls are answered; the next one ends the
conversation. -/
def maxTotalToolCalls : ℕ := 30

/-- The length of the reasoning from which on a drop is honoured. -/
def minReasoning : ℕ := 40

namespace VerifierCall

variable (call : VerifierCall)

/-- The call submits a verdict. -/
def isVerdict : Bool := call.toolName = "submit_verdict"

/-- The call counts toward the caps. -/
def isCounted : Bool := call.toolName ≠ "finalize_verdict"

/-- The text by which repeated calls are recognised. -/
def key : String := call.toolName ++ "::" ++ call.arguments.dump

/-- The call is a verdict `FALSE_POSITIVE` with confidence `High` and a long enough reasoning. -/
def drops : Bool :=
  (call.arguments.field "verdict").bind Json.asString = some "FALSE_POSITIVE" &&
    call.arguments.valueString "confidence" "Medium" = some "High" &&
    (call.arguments.valueString "reasoning" "").any fun reasoning =>
      minReasoning ≤ reasoning.utf8ByteSize

end VerifierCall

namespace VerifierAnswer

/-- The answer comes from the verdict handler. -/
def fromHandler : VerifierAnswer → Bool
  | .recorded | .downgraded | .throws => true
  | _ => false

/-- The session ends with the answer. -/
def ends : VerifierAnswer → Bool
  | .finish | .throws => true
  | _ => false

/-- The answer is an exception. -/
def isThrow : VerifierAnswer → Bool
  | .throws => true
  | _ => false

end VerifierAnswer

/-- `VerificationAgent`, with what the tools that gather evidence answer; `none` where one
throws. -/
structure VerificationAgent where
  /-- The answers of the other tools. -/
  evidence : VerifierCall → Option String

namespace VerificationAgent

variable (A : VerificationAgent)

/-- `submit_verdict`. -/
def submitVerdict (s : VerifierState) (arguments : Json) : VerifierAnswer × VerifierState :=
  match (arguments.field "verdict").bind Json.getString with
  | none => (.throws, s)
  | some verdictStr =>
    match arguments.valueString "confidence" "Medium" with
    | none => (.throws, s)
    | some confidence =>
      match arguments.valueString "reasoning" "" with
      | none => (.throws, s)
      | some reasoning =>
        let isFp : Bool := verdictStr = "FALSE_POSITIVE"
        let isTp : Bool := verdictStr = "TRUE_POSITIVE"
        if isFp && (confidence ≠ "High" || reasoning.utf8ByteSize < minReasoning) then
          (.downgraded, { s with verdict := true, hasVerdict := true })
        else (.recorded, { s with verdict := isTp || !isFp, hasVerdict := true })

/-- The tool itself, behind the caps. -/
def dispatch (s : VerifierState) (call : VerifierCall) : VerifierAnswer × VerifierState :=
  if call.isVerdict then submitVerdict s call.arguments
  else
    match A.evidence call with
    | none => (.throws, s)
    | some text => (.evidence text, s)

/-- `VerificationAgent::execute_tool`: one tool call of a verification, counted unless it is the
final one. -/
def executeTool (s : VerifierState) (call : VerifierCall) : VerifierAnswer × VerifierState :=
  if !call.isCounted then A.dispatch s call
  else
    let s := { s with totalToolCalls := s.totalToolCalls + 1 }
    if s.totalToolCalls > maxTotalToolCalls then (.finish, s)
    else if call.key ∈ s.seenToolCalls then
      let s := { s with dupCallCount := s.dupCallCount + 1 }
      if s.dupCallCount > maxDupCalls then (.finish, s)
      else (.duplicateCall call s.dupCallCount (maxDupCalls - s.dupCallCount), s)
    else A.dispatch { s with seenToolCalls := call.key :: s.seenToolCalls } call

/-- The calls the session makes out of those the model asks for, with their answers, and the state
it ends in. -/
def runTools (s : VerifierState) :
    List VerifierCall → List (VerifierCall × VerifierAnswer) × VerifierState
  | [] => ([], s)
  | call :: calls =>
    let r := A.executeTool s call
    if r.1.ends then ([(call, r.1)], r.2)
    else
      let rest := runTools r.2 calls
      ((call, r.1) :: rest.1, rest.2)

/-- `has_verdict_ ? verdict_ : true`: whether a hypothesis stays: without a verdict it does. -/
def kept (s : VerifierState) : Bool := if s.hasVerdict then s.verdict else true

/-- `VerificationAgent::verifyHypothesis`: whether the hypothesis is kept; `none` where a tool
threw. -/
def verifyHypothesis (calls : List VerifierCall) : Option Bool :=
  let r := A.runTools {} calls
  if r.1.any fun p => p.2.isThrow then none else some (kept r.2)

/-! ### What the session promises -/

/-- The calls that the session makes. -/
def callsMade (calls : List VerifierCall) : List VerifierCall :=
  (A.runTools {} calls).1.map Prod.fst

/-- The last verdict among some calls. -/
def lastVerdict (calls : List VerifierCall) : Option VerifierCall :=
  (calls.filter VerifierCall.isVerdict).getLast?

/-- No verdict of the session is lost. -/
structure KeepsVerdicts (calls : List VerifierCall) : Prop where
  /-- Every verdict reaches the handler. -/
  reaches : ∀ p ∈ (A.runTools {} calls).1, p.1.isVerdict → p.2.fromHandler
  /-- The hypothesis is dropped exactly if the last verdict says so. -/
  dropped : ∀ keep, A.verifyHypothesis calls = some keep →
    (keep = false ↔ (lastVerdict (A.callsMade calls)).any VerifierCall.drops)

/-- The calls that count toward the caps. -/
def counted (calls : List VerifierCall) : List VerifierCall := calls.filter VerifierCall.isCounted

/-- After the calls `past`, every verdict among the next ones is within the cap on all calls and
repeats no call. -/
def WithinCaps (past : List VerifierCall) : List VerifierCall → Prop
  | [] => True
  | call :: calls =>
    (call.isVerdict → (counted past).length < maxTotalToolCalls ∧
        call.key ∉ (counted past).map VerifierCall.key) ∧
      WithinCaps (past ++ [call]) calls

instance decidableWithinCaps (past calls : List VerifierCall) :
    Decidable (WithinCaps past calls) :=
  match calls with
  | [] => inferInstanceAs (Decidable True)
  | call :: calls =>
    have := decidableWithinCaps (past ++ [call]) calls
    inferInstanceAs (Decidable ((_ → _ ∧ _) ∧ _))

variable {A} {s : VerifierState} {past calls : List VerifierCall} {call : VerifierCall}

/-! ### The counters -/

/-- The state counts the calls that were made. -/
structure Tracks (past : List VerifierCall) (s : VerifierState) : Prop where
  /-- The number of counted calls. -/
  total : s.totalToolCalls = (counted past).length
  /-- The keys that were seen. -/
  seen : ∀ key, key ∈ s.seenToolCalls ↔ key ∈ (counted past).map VerifierCall.key

theorem tracks_start : Tracks [] {} := ⟨rfl, fun _ => Iff.rfl⟩

theorem isCounted_of_isVerdict (hverdict : call.isVerdict) : call.isCounted := by
  simp only [VerifierCall.isVerdict, VerifierCall.isCounted, decide_eq_true_eq] at *
  rw [hverdict]
  decide

theorem counted_concat (hcounted : call.isCounted) :
    counted (past ++ [call]) = counted past ++ [call] := by
  simp [counted, List.filter_append, hcounted]

/-- Behind the caps the counters are left alone. -/
theorem dispatch_counters (s : VerifierState) (call : VerifierCall) :
    (A.dispatch s call).2.totalToolCalls = s.totalToolCalls ∧
      (A.dispatch s call).2.seenToolCalls = s.seenToolCalls := by
  -- The handlers write the verdict, and nothing else of the state.
  unfold dispatch submitVerdict
  split
  · split
    · exact ⟨rfl, rfl⟩
    · split
      · exact ⟨rfl, rfl⟩
      · split
        · exact ⟨rfl, rfl⟩
        · dsimp only
          split
          · exact ⟨rfl, rfl⟩
          · exact ⟨rfl, rfl⟩
  · split
    · exact ⟨rfl, rfl⟩
    · exact ⟨rfl, rfl⟩

/-- A call that does not end the session is counted. -/
theorem Tracks.executeTool (htracks : Tracks past s)
    (hgoes : (A.executeTool s call).1.ends = false) :
    Tracks (past ++ [call]) (A.executeTool s call).2 := by
  unfold VerificationAgent.executeTool at hgoes ⊢
  by_cases hcounted : call.isCounted = true
  · simp only [hcounted, Bool.not_true, Bool.false_eq_true, if_false] at hgoes ⊢
    -- The call is the latest of the counted ones.
    have hmap : (counted (past ++ [call])).map VerifierCall.key =
        (counted past).map VerifierCall.key ++ [call.key] := by
      rw [counted_concat hcounted, List.map_append]
      rfl
    have hlen : (counted (past ++ [call])).length = s.totalToolCalls + 1 := by
      rw [counted_concat hcounted, List.length_append, htracks.total]
      rfl
    split_ifs at hgoes ⊢ with htotal hseen hdup
    · cases hgoes
    · cases hgoes
    · -- A repeated call adds no key.
      refine ⟨hlen.symm, fun key => ?_⟩
      rw [hmap, List.mem_append, ← htracks.seen key, List.mem_singleton]
      constructor
      · exact Or.inl
      · rintro (hkey | rfl)
        · exact hkey
        · exact hseen
    · obtain ⟨htot, hkeys⟩ := A.dispatch_counters
        { s with totalToolCalls := s.totalToolCalls + 1,
                 seenToolCalls := call.key :: s.seenToolCalls } call
      refine ⟨htot.trans hlen.symm, fun key => ?_⟩
      rw [hkeys, hmap, List.mem_cons, List.mem_append, ← htracks.seen key, List.mem_singleton,
        or_comm]
  · -- A call that is exempt changes neither the number nor the keys.
    have hfree : counted (past ++ [call]) = counted past := by
      simp [counted, List.filter_append, hcounted]
    simp only [hcounted, Bool.not_false, if_true]
    obtain ⟨htot, hkeys⟩ := A.dispatch_counters s call
    refine ⟨?_, fun key => ?_⟩
    · rw [htot, hfree, htracks.total]
    · rw [hkeys, hfree, htracks.seen]

/-! ### One verdict -/

theorem fromHandler_submitVerdict (s : VerifierState) (arguments : Json) :
    (submitVerdict s arguments).1.fromHandler = true := by
  unfold submitVerdict
  split
  · rfl
  · split
    · rfl
    · split
      · rfl
      · dsimp only
        split
        · rfl
        · rfl

/-- A verdict reaches its handler exactly if the calls before it leave room for it and it repeats
none of them. -/
theorem fromHandler_iff (htracks : Tracks past s) (hverdict : call.isVerdict) :
    (A.executeTool s call).1.fromHandler = true ↔
      (counted past).length < maxTotalToolCalls ∧
        call.key ∉ (counted past).map VerifierCall.key := by
  unfold executeTool
  rw [← htracks.seen, ← htracks.total]
  simp only [isCounted_of_isVerdict hverdict, Bool.not_true, Bool.false_eq_true, if_false]
  -- The cap on all calls comes first, then the test for repeated calls.
  split_ifs with htotal hseen hdup
  · simp only [VerifierAnswer.fromHandler, Bool.false_eq_true, false_iff]
    rintro ⟨hlt, -⟩
    omega
  · simp [VerifierAnswer.fromHandler, hseen]
  · simp [VerifierAnswer.fromHandler, hseen]
  · unfold dispatch
    simp only [hverdict, if_true, fromHandler_submitVerdict, true_iff]
    exact ⟨by omega, hseen⟩

/-- What the handler decides, unless it throws: the hypothesis is kept unless the verdict drops
it. -/
theorem kept_submitVerdict (hthrow : (submitVerdict s call.arguments).1.isThrow = false) :
    kept (submitVerdict s call.arguments).2 = !call.drops := by
  unfold submitVerdict VerifierCall.drops at *
  cases hv : (call.arguments.field "verdict").bind Json.getString with
  | none => simp [hv, VerifierAnswer.isThrow] at hthrow
  | some verdict =>
    have hv' : (call.arguments.field "verdict").bind Json.asString = some verdict := hv
    -- A member of the wrong type makes the handler throw.
    cases hc : call.arguments.valueString "confidence" "Medium" with
    | none => simp [hv, hc, VerifierAnswer.isThrow] at hthrow
    | some confidence =>
      cases hr : call.arguments.valueString "reasoning" "" with
      | none => simp [hv, hc, hr, VerifierAnswer.isThrow] at hthrow
      | some reasoning =>
        simp only [hv', Option.some.injEq, Option.any_some]
        -- Only a false positive of high confidence with a long reason drops the hypothesis.
        by_cases hfp : verdict = "FALSE_POSITIVE"
        · by_cases hhigh : confidence = "High"
          · by_cases hlong : minReasoning ≤ reasoning.utf8ByteSize
            · simp [hfp, hhigh, hlong, Nat.not_lt.mpr hlong, kept]
            · simp [hfp, hhigh, hlong, Nat.lt_of_not_le hlong, kept]
          · simp [hfp, hhigh, kept]
        · simp [hfp, kept]

/-- A call that is no verdict, and a verdict that misses the handler, leave the decision alone. -/
theorem kept_executeTool_of_ne (h : call.isVerdict = false) :
    kept (A.executeTool s call).2 = kept s := by
  have hdispatch : ∀ s, kept (A.dispatch s call).2 = kept s := by
    intro s
    unfold dispatch
    simp only [h, Bool.false_eq_true, if_false]
    split
    · rfl
    · rfl
  unfold executeTool
  dsimp only
  split_ifs
  · exact hdispatch s
  · rfl
  · rfl
  · rfl
  · exact hdispatch _

/-- A verdict that reaches the handler decides. -/
theorem kept_executeTool (hverdict : call.isVerdict)
    (hreach : (A.executeTool s call).1.fromHandler)
    (hthrow : (A.executeTool s call).1.isThrow = false) :
    kept (A.executeTool s call).2 = !call.drops := by
  unfold executeTool at *
  simp only [isCounted_of_isVerdict hverdict, Bool.not_true, Bool.false_eq_true, if_false] at *
  split_ifs at * with htotal hseen hdup
  · cases hreach
  · cases hreach
  · cases hreach
  · unfold dispatch at *
    simp only [hverdict, if_true] at *
    exact kept_submitVerdict hthrow

/-! ### The session -/

theorem lastVerdict_concat : lastVerdict (past ++ [call]) =
    if call.isVerdict then some call else lastVerdict past := by
  unfold lastVerdict
  split_ifs with hverdict
  · simp [List.filter_append, hverdict]
  · simp [List.filter_append, hverdict]

/-- The verdicts of a session reach their handler exactly if they are within the caps. -/
theorem reaches_iff (htracks : Tracks past s) (calls : List VerifierCall) :
    (∀ p ∈ (A.runTools s calls).1, p.1.isVerdict → p.2.fromHandler) ↔
      WithinCaps past ((A.runTools s calls).1.map Prod.fst) := by
  induction calls generalizing s past with
  | nil => simp [runTools, WithinCaps]
  | cons call calls ih =>
    have hhead : (call.isVerdict = true → (A.executeTool s call).1.fromHandler = true) ↔
        (call.isVerdict → (counted past).length < maxTotalToolCalls ∧
          call.key ∉ (counted past).map VerifierCall.key) :=
      ⟨fun h hverdict => (fromHandler_iff htracks hverdict).mp (h hverdict),
        fun h hverdict => (fromHandler_iff htracks hverdict).mpr (h hverdict)⟩
    dsimp only [runTools]
    -- The session ends here, or goes on with the counters of this call.
    cases hends : (A.executeTool s call).1.ends with
    | true => simpa [WithinCaps] using hhead
    | false =>
      have htail := ih (htracks.executeTool hends)
      simp only [Bool.false_eq_true, if_false, List.forall_mem_cons, List.map_cons, WithinCaps]
      rw [htail]
      exact and_congr hhead Iff.rfl

/-- If all verdicts reach their handler, and none throws, the last one decides. -/
theorem kept_runTools (hkept : kept s = !(lastVerdict past).any VerifierCall.drops)
    (hreach : ∀ p ∈ (A.runTools s calls).1, p.1.isVerdict → p.2.fromHandler)
    (hthrow : ∀ p ∈ (A.runTools s calls).1, p.2.isThrow = false) :
    kept (A.runTools s calls).2 =
      !(lastVerdict (past ++ (A.runTools s calls).1.map Prod.fst)).any VerifierCall.drops := by
  induction calls generalizing s past with
  | nil => simpa [runTools] using hkept
  | cons call calls ih =>
    -- The next call keeps the relation between the state and the calls made.
    have hnext : (call.isVerdict = true → (A.executeTool s call).1.fromHandler = true) →
        (A.executeTool s call).1.isThrow = false →
        kept (A.executeTool s call).2 =
          !(lastVerdict (past ++ [call])).any VerifierCall.drops := by
      intro hreach hthrow
      rw [lastVerdict_concat]
      cases hverdict : call.isVerdict with
      | true => exact kept_executeTool hverdict (hreach hverdict) hthrow
      | false => exact (kept_executeTool_of_ne hverdict).trans hkept
    dsimp only [runTools] at hreach hthrow ⊢
    cases hends : (A.executeTool s call).1.ends with
    | true =>
      simp only [hends, if_true, List.forall_mem_singleton] at hreach hthrow ⊢
      exact hnext hreach hthrow
    | false =>
      simp only [hends, Bool.false_eq_true, if_false, List.forall_mem_cons] at hreach hthrow ⊢
      have hrest := ih (hnext hreach.1 hthrow.1) hreach.2 hthrow.2
      rw [hrest, List.append_assoc]
      rfl

/-- A session loses no verdict exactly if none of its verdicts comes behind the cap on all calls or
repeats an earlier call. -/
theorem keepsVerdicts_iff (A : VerificationAgent) (calls : List VerifierCall) :
    A.KeepsVerdicts calls ↔ WithinCaps [] (A.callsMade calls) := by
  have hreaches := A.reaches_iff tracks_start calls
  constructor
  · intro hkeeps
    exact hreaches.mp hkeeps.reaches
  · intro hcaps
    refine ⟨hreaches.mpr hcaps, fun keep hkeep => ?_⟩
    unfold verifyHypothesis at hkeep
    dsimp only at hkeep
    split_ifs at hkeep with hany
    cases hkeep
    have hthrow : ∀ p ∈ (A.runTools {} calls).1, p.2.isThrow = false := by
      intro p hp
      by_contra hno
      exact hany (List.any_eq_true.mpr ⟨p, hp, by simpa using hno⟩)
    -- No handler threw, so the last verdict has decided.
    have hlast : kept (A.runTools {} calls).2 =
        !(lastVerdict ([] ++ (A.runTools {} calls).1.map Prod.fst)).any VerifierCall.drops :=
      kept_runTools rfl (hreaches.mpr hcaps) hthrow
    rw [hlast, Bool.not_eq_false', List.nil_append]
    rfl

/-! ### Verdicts behind the caps -/

/-- Every tool answers. -/
def answering : VerificationAgent where
  evidence _ := some "ok"

/-- A verdict with high confidence and a reasoning of 46 characters. -/
def confident (verdict : String) : VerifierCall where
  toolName := "submit_verdict"
  arguments := .obj
    [("confidence", .str "High"),
      ("reasoning", .str "The writer finishes before the reader is born."),
      ("verdict", .str verdict)]

/-- The agent drops the hypothesis, thinks better of it, and returns to its first verdict. -/
def revisited : List VerifierCall :=
  [confident "FALSE_POSITIVE", confident "TRUE_POSITIVE", confident "FALSE_POSITIVE"]

/-- The agent reads thirty functions before it drops the hypothesis. -/
def thorough : List VerifierCall :=
  ((List.range 30).map fun i => ⟨"get_function_code", .obj [("function_id", .int i)]⟩) ++
    [confident "FALSE_POSITIVE"]

/-- Both times the last verdict drops the hypothesis, does not reach its handler, and the
hypothesis is kept. -/
theorem verdicts_lost :
    ¬answering.KeepsVerdicts revisited ∧ answering.verifyHypothesis revisited = some true ∧
      ¬answering.KeepsVerdicts thorough ∧ answering.verifyHypothesis thorough = some true := by
  have hrevisited : answering.verifyHypothesis revisited = some true := by decide +kernel
  have hthorough : answering.verifyHypothesis thorough = some true := by decide +kernel
  refine ⟨fun hkeeps => ?_, hrevisited, fun hkeeps => ?_, hthorough⟩
  · have hdrops : (lastVerdict (answering.callsMade revisited)).any VerifierCall.drops = true := by
      decide +kernel
    exact absurd ((hkeeps.dropped true hrevisited).mpr hdrops) (by decide)
  · have hdrops : (lastVerdict (answering.callsMade thorough)).any VerifierCall.drops = true := by
      decide +kernel
    exact absurd ((hkeeps.dropped true hthorough).mpr hdrops) (by decide)

end VerificationAgent

end Lace.LLM
