import Mathlib.Data.List.Nodup
import Lace.LLM.Message

/-!
# Repairing tool calls and answers

`sanitize_messages_for_tool_calls` of the LLM client, which every history passes before it is
sent: each issued call gets a fresh id, answers are matched to the calls of the latest assistant
message and renamed with them, orphan answers are dropped and missing ones filled in.

## Main definitions

* `sanitizeMessagesForToolCalls`: the function of the source.
* `Answered p ms`, `WellFormedHistory ms`: what a repaired history looks like.
* `exchanges ms`: the calls of a history with the answers they get.

## Main results

* `sanitizeMessagesForToolCalls_repairs`: the output is well formed, keeps the messages and the
  answers, renames a well-formed history only, and is its own repair.
-/

namespace Lace.LLM

/-- The state of the loop between two messages. -/
structure RenameState where
  /-- `pending_renames`: original and fresh ids of the calls not answered yet. -/
  pendingRenames : List (String × String)
  /-- `call_counter`. -/
  callCounter : ℕ

/-- The fresh id `lacecall_<n>`. -/
def freshId (n : ℕ) : String :=
  "lacecall_" ++ toString n

/-- `flush_pending`: a placeholder answer for every call that got none. -/
def placeholder (freshId : String) : ChatMessage :=
  { role := .tool
    content := "[Tool result missing due to history pruning; treat as no-op.]"
    toolCallId := some freshId }

/-- The calls of an assistant message under fresh ids, counting from `n`. -/
def renameCalls : ℕ → List ToolCallRequest → List ToolCallRequest
  | _, [] => []
  | n, tc :: tcs => { tc with id := freshId n } :: renameCalls (n + 1) tcs

/-- The renamings those calls leave pending. -/
def newRenames : ℕ → List ToolCallRequest → List (String × String)
  | _, [] => []
  | n, tc :: tcs => (tc.id, freshId n) :: newRenames (n + 1) tcs

/-- The placeholders for the calls that are still pending. -/
def flushPending (st : RenameState) : List ChatMessage :=
  st.pendingRenames.map fun p => placeholder p.2

/-- One turn of the loop: the messages it appends and the state it leaves. -/
def sanitizeStep (st : RenameState) (msg : ChatMessage) : List ChatMessage × RenameState :=
  match msg.role with
  | .tool =>
    match msg.toolCallId with
    | none => ([], st)
    | some origId =>
      match st.pendingRenames.find? (·.1 == origId) with
      | none => ([], st)
      | some p =>
        ([{ msg with toolCallId := some p.2 }],
          { st with pendingRenames := st.pendingRenames.eraseP (·.1 == origId) })
  | .assistant =>
    match msg.toolCalls with
    | none => (flushPending st ++ [msg], { st with pendingRenames := [] })
    | some calls =>
      (flushPending st ++ [{ msg with toolCalls := some (renameCalls st.callCounter calls) }],
        { pendingRenames := newRenames st.callCounter calls
          callCounter := st.callCounter + calls.length })
  | .user | .system => (flushPending st ++ [msg], { st with pendingRenames := [] })

/-- The loop over the remaining messages, with the flush at the end. -/
def sanitizeFrom (st : RenameState) : List ChatMessage → List ChatMessage
  | [] => flushPending st
  | msg :: rest => (sanitizeStep st msg).1 ++ sanitizeFrom (sanitizeStep st msg).2 rest

/-- `sanitize_messages_for_tool_calls`: the messages as the service accepts them: every answer after
its call. -/
def sanitizeMessagesForToolCalls (messages : List ChatMessage) : List ChatMessage :=
  sanitizeFrom ⟨[], 0⟩ messages

/-! ### Well-formed histories -/

/-- `Answered p ms`: with the calls `p` of the latest assistant message still unanswered, every
tool message answers one of them and nothing else comes before they are all answered. -/
def Answered : List String → List ChatMessage → Prop
  | p, [] => p = []
  | p, m :: ms =>
    match m.role with
    | .tool => ∃ id ∈ p, m.toolCallId = some id ∧ Answered (p.erase id) ms
    | _ => p = [] ∧ Answered (m.issued.map (·.id)) ms

/-- The ids of all calls issued in a history. -/
def issuedIds (ms : List ChatMessage) : List String :=
  ms.flatMap fun m => m.issued.map (·.id)

/-- A well-formed history: distinct call ids, and each call answered once before the next message
that is no answer. -/
def WellFormedHistory (ms : List ChatMessage) : Prop :=
  (issuedIds ms).Nodup ∧ Answered [] ms

/-! ### Exchanges -/

/-- A call with the answer it got, if any. -/
structure Exchange where
  /-- The call. -/
  call : ToolCallRequest
  /-- The tool message that answers it. -/
  answer : Option ChatMessage := none
  deriving DecidableEq

namespace Exchange

/-- The exchange without its ids. -/
def eraseIds (e : Exchange) : Exchange :=
  { call := { e.call with id := "" }, answer := e.answer.map ChatMessage.eraseIds }

/-- The exchange with a placeholder where the answer is missing. -/
def fill (e : Exchange) : Exchange :=
  { e with answer := some (e.answer.getD (placeholder e.call.id)) }

end Exchange

/-- The answer `m` goes to the first unanswered call with the id it names. -/
def answerFirst (id : String) (m : ChatMessage) : List Exchange → List Exchange
  | [] => []
  | e :: es =>
    if e.call.id = id ∧ e.answer = none then { e with answer := some m } :: es
    else e :: answerFirst id m es

/-- The exchanges of the remaining messages, `current` being those of the latest assistant
message. -/
def exchangesFrom (current : List Exchange) : List ChatMessage → List Exchange
  | [] => current
  | m :: ms =>
    match m.role with
    | .tool =>
      match m.toolCallId with
      | none => exchangesFrom current ms
      | some id => exchangesFrom (answerFirst id m current) ms
    | _ => current ++ exchangesFrom (m.issued.map fun c => { call := c }) ms

/-- The calls of a history with the answers they get: an answer must follow the assistant message
with only tool messages in between, and answers the first call of its id that has none yet. -/
def exchanges (ms : List ChatMessage) : List Exchange :=
  exchangesFrom [] ms

/-! ### One turn of the loop -/

/-- An assistant message under fresh ids counting from `n`; any other message as it is. -/
def renameIssued (n : ℕ) (m : ChatMessage) : ChatMessage :=
  if m.role = .assistant then { m with toolCalls := m.toolCalls.map (renameCalls n) } else m

/-- The three things a turn can do. -/
inductive StepView (st : RenameState) (msg : ChatMessage) :
    List ChatMessage × RenameState → Prop
  /-- An answer to no pending call is dropped. -/
  | dropped (hrole : msg.role = .tool)
      (hno : ∀ id, msg.toolCallId = some id → ∀ p ∈ st.pendingRenames, p.1 ≠ id) :
      StepView st msg ([], st)
  /-- An answer to a pending call is renamed with it. -/
  | answered {id : String} {p : String × String} (hrole : msg.role = .tool)
      (hid : msg.toolCallId = some id) (hp : st.pendingRenames.find? (·.1 == id) = some p) :
      StepView st msg ([{ msg with toolCallId := some p.2 }],
        { st with pendingRenames := st.pendingRenames.eraseP (·.1 == id) })
  /-- Any other message closes the pending calls and opens its own. -/
  | spoken (hrole : msg.role ≠ .tool) :
      StepView st msg (flushPending st ++ [renameIssued st.callCounter msg],
        { pendingRenames := newRenames st.callCounter msg.issued
          callCounter := st.callCounter + msg.issued.length })

/-- What one turn of the loop does, by the role of the message. -/
lemma sanitizeStep_view (st : RenameState) (msg : ChatMessage) :
    StepView st msg (sanitizeStep st msg) := by
  obtain ⟨role, content, calls, toolCallId, toolName, pinned⟩ := msg
  cases role with
  | tool =>
    cases toolCallId with
    | none => exact .dropped rfl (by simp)
    | some id =>
      cases hp : st.pendingRenames.find? (·.1 == id) with
      | none =>
        -- No pending call has the id, so the answer is dropped.
        simp only [sanitizeStep, hp]
        refine .dropped rfl fun id' hid' p hmem heq => ?_
        obtain rfl : id = id' := Option.some.inj hid'
        exact List.find?_eq_none.mp hp p hmem (beq_iff_eq.mpr heq)
      | some p =>
        simp only [sanitizeStep, hp]
        exact .answered rfl rfl hp
  | assistant => cases calls <;> exact .spoken (by simp)
  | user | system => exact .spoken (by simp)

/-- Renaming calls changes no role. -/
@[simp]
lemma role_renameIssued (n : ℕ) (m : ChatMessage) : (renameIssued n m).role = m.role := by
  rw [renameIssued]
  split <;> rfl

/-- The calls of a renamed message are the renamed calls. -/
lemma issued_renameIssued (n : ℕ) (m : ChatMessage) :
    (renameIssued n m).issued = renameCalls n m.issued := by
  obtain ⟨role, content, calls, toolCallId, toolName, pinned⟩ := m
  cases role <;> cases calls <;> rfl

/-- Renaming changes nothing of a call but its id. -/
lemma map_eraseId_renameCalls (n : ℕ) (calls : List ToolCallRequest) :
    (renameCalls n calls).map (fun c => { c with id := "" }) =
      calls.map fun c => { c with id := "" } := by
  induction calls generalizing n with
  | nil => rfl
  | cons c calls ih => rw [renameCalls, List.map_cons, ih, List.map_cons]

/-- Renaming changes nothing of a message but ids. -/
@[simp]
lemma eraseIds_renameIssued (n : ℕ) (m : ChatMessage) :
    (renameIssued n m).eraseIds = m.eraseIds := by
  obtain ⟨role, content, calls, toolCallId, toolName, pinned⟩ := m
  cases role <;> cases calls <;>
    simp [renameIssued, ChatMessage.eraseIds, ChatMessage.renameIds, map_eraseId_renameCalls]

/-! ### Fresh ids -/

/-- Fresh ids are different. -/
lemma freshId_injective : Function.Injective freshId := by
  intro a b h
  have hrepr : a.repr = b.repr := (String.append_right_inj "lacecall_").mp h
  have hdigits := congrArg String.toList hrepr
  rw [Nat.toList_repr, Nat.toList_repr] at hdigits
  rw [← @Nat.ofDigitChars_ten_toDigits a, hdigits, Nat.ofDigitChars_ten_toDigits]

/-- The new ids are fresh ones in a row. -/
lemma map_id_renameCalls (n : ℕ) (calls : List ToolCallRequest) :
    (renameCalls n calls).map (·.id) = (List.range' n calls.length).map freshId := by
  induction calls generalizing n with
  | nil => rfl
  | cons c calls ih => rw [renameCalls, List.map_cons, ih, List.length_cons, List.range'_succ,
      List.map_cons]

/-- The renames that are noted lead to the new ids. -/
lemma map_snd_newRenames (n : ℕ) (calls : List ToolCallRequest) :
    (newRenames n calls).map (·.2) = (renameCalls n calls).map (·.id) := by
  induction calls generalizing n with
  | nil => rfl
  | cons c calls ih => rw [newRenames, List.map_cons, ih, renameCalls, List.map_cons]

/-- Fresh ids in a row are different. -/
lemma nodup_fresh (n k : ℕ) : ((List.range' n k).map freshId).Nodup :=
  List.Nodup.map freshId_injective List.nodup_range'

/-! ### The output is well formed -/

/-- A placeholder issues no calls. -/
@[simp]
lemma issued_placeholder (f : String) : (placeholder f).issued = [] :=
  rfl

@[simp]
lemma issuedIds_nil : issuedIds [] = [] :=
  rfl

@[simp]
lemma issuedIds_cons (m : ChatMessage) (ms : List ChatMessage) :
    issuedIds (m :: ms) = m.issued.map (·.id) ++ issuedIds ms :=
  rfl

/-- The ids that two lists issue, one after the other. -/
@[simp]
lemma issuedIds_append (ms ms' : List ChatMessage) :
    issuedIds (ms ++ ms') = issuedIds ms ++ issuedIds ms' :=
  List.flatMap_append

/-- Placeholders issue no ids. -/
@[simp]
lemma issuedIds_flushPending (st : RenameState) : issuedIds (flushPending st) = [] := by
  simp [issuedIds, flushPending, List.flatMap_map]

/-- A tool message issues no calls. -/
lemma issued_of_tool {m : ChatMessage} (h : m.role = .tool) : m.issued = [] := by
  simp [ChatMessage.issued, h]

/-- The calls of the output carry the fresh ids in order. -/
theorem issuedIds_sanitizeFrom (st : RenameState) (ms : List ChatMessage) :
    issuedIds (sanitizeFrom st ms) =
      (List.range' st.callCounter (issuedIds ms).length).map freshId := by
  induction ms generalizing st with
  | nil => simp [sanitizeFrom]
  | cons m ms ih =>
    rw [sanitizeFrom]
    have view := sanitizeStep_view st m
    generalize sanitizeStep st m = r at view
    cases view with
    -- Answers issue no calls, and neither do the placeholders in front of a message.
    | dropped hrole hno => simp [ih, issued_of_tool hrole]
    | answered hrole hid hp => simp [ih, ChatMessage.issued, hrole]
    | spoken hrole =>
      simp only [issuedIds_append, issuedIds_flushPending, issuedIds_cons, issuedIds_nil, ih,
        issued_renameIssued, map_id_renameCalls, List.nil_append, List.append_nil,
        List.length_append, List.length_map, ← List.map_append, List.range'_append_1]

/-- The placeholders answer all pending calls, so what follows starts with none. -/
lemma answered_placeholders (p : List String) (ms : List ChatMessage) :
    Answered p (p.map placeholder ++ ms) ↔ Answered [] ms := by
  induction p with
  | nil => rfl
  | cons id p ih =>
    rw [List.map_cons, List.cons_append, Answered, ← ih]
    constructor
    · rintro ⟨id', -, hid, h⟩
      obtain rfl : id = id' := Option.some.inj hid
      rwa [List.erase_cons_head] at h
    · intro h
      exact ⟨id, List.mem_cons_self, rfl, by rwa [List.erase_cons_head]⟩

/-- The placeholders answer all that is pending. -/
lemma answered_flushPending (st : RenameState) (ms : List ChatMessage) :
    Answered (st.pendingRenames.map (·.2)) (flushPending st ++ ms) ↔ Answered [] ms := by
  rw [← answered_placeholders (st.pendingRenames.map (·.2)), List.map_map]
  rfl

/-- With nothing pending, a message opens the calls that it issues. -/
lemma answered_nil_spoken {m : ChatMessage} (h : m.role ≠ .tool) (ms : List ChatMessage) :
    Answered [] (m :: ms) ↔ Answered (m.issued.map (·.id)) ms := by
  rw [Answered]
  split
  · contradiction
  · exact and_iff_right rfl

/-- Taking out the renaming that `find?` found takes its fresh id out of the pending ones. -/
lemma map_snd_eraseP {ps : List (String × String)} (hnodup : (ps.map (·.2)).Nodup) {id : String}
    {p : String × String} (hp : ps.find? (·.1 == id) = some p) :
    (ps.eraseP (·.1 == id)).map (·.2) = (ps.map (·.2)).erase p.2 := by
  induction ps with
  | nil => simp at hp
  | cons q ps ih =>
    rw [List.map_cons, List.nodup_cons] at hnodup
    rw [List.find?_cons] at hp
    cases hq : q.1 == id with
    | true =>
      rw [hq] at hp
      obtain rfl : q = p := Option.some.inj hp
      rw [List.eraseP_cons_of_pos (p := fun r : String × String => r.1 == id) hq, List.map_cons,
        List.erase_cons_head]
    | false =>
      rw [hq] at hp
      -- The fresh id of `p` is further down, so it is not that of `q`.
      have hne : q.2 ≠ p.2 := fun heq =>
        hnodup.1 (heq ▸ List.mem_map_of_mem (List.mem_of_find?_eq_some hp))
      rw [List.eraseP_cons_of_neg (p := fun r : String × String => r.1 == id) (by simp [hq]),
        List.map_cons, ih hnodup.2 hp, List.map_cons, List.erase_cons_tail (by simpa using hne)]

/-- The output answers every call in time. -/
theorem answered_sanitizeFrom (st : RenameState) (ms : List ChatMessage)
    (hnodup : (st.pendingRenames.map (·.2)).Nodup) :
    Answered (st.pendingRenames.map (·.2)) (sanitizeFrom st ms) := by
  induction ms generalizing st with
  | nil =>
    have hend := (answered_flushPending st []).mpr rfl
    rwa [List.append_nil] at hend
  | cons m ms ih =>
    rw [sanitizeFrom]
    have view := sanitizeStep_view st m
    generalize sanitizeStep st m = r at view
    cases view with
    | dropped hrole hno => exact ih st hnodup
    | @answered id p hrole hid hp =>
      -- The call that is answered is no longer pending.
      simp only [List.singleton_append, Answered, hrole]
      refine ⟨p.2, List.mem_map_of_mem (List.mem_of_find?_eq_some hp), rfl, ?_⟩
      rw [← map_snd_eraseP hnodup hp]
      exact ih { st with pendingRenames := st.pendingRenames.eraseP (·.1 == id) }
        (hnodup.sublist (List.eraseP_sublist.map _))
    | spoken hrole =>
      -- All pending calls are answered first, so only the calls of this message are pending.
      rw [List.append_assoc, answered_flushPending, List.singleton_append,
        answered_nil_spoken (by simpa using hrole), issued_renameIssued, ← map_snd_newRenames]
      refine ih { pendingRenames := newRenames st.callCounter m.issued, .. } ?_
      rw [map_snd_newRenames, map_id_renameCalls]
      exact nodup_fresh _ _

/-! ### What is kept -/

/-- The messages that are no answers keep their order and everything but the ids of their calls. -/
theorem filter_sanitizeFrom (st : RenameState) (ms : List ChatMessage) :
    ((sanitizeFrom st ms).filter (·.role != .tool)).map ChatMessage.eraseIds =
      (ms.filter (·.role != .tool)).map ChatMessage.eraseIds := by
  -- What is put in front of a message are answers.
  have hflush : ∀ st, (flushPending st).filter (·.role != .tool) = [] := by
    intro st
    simp [flushPending, placeholder, List.filter_map, Function.comp_def]
  induction ms generalizing st with
  | nil => simp [sanitizeFrom, hflush]
  | cons m ms ih =>
    rw [sanitizeFrom]
    have view := sanitizeStep_view st m
    generalize sanitizeStep st m = r at view
    cases view with
    | dropped hrole hno => simp [hrole, ih]
    | answered hrole hid hp => simp [hrole, ih]
    | spoken hrole => simp [hrole, hflush, ih]

/-- The calls that still wait for an answer. -/
def unanswered (es : List Exchange) : List String :=
  (es.filter (·.answer.isNone)).map (·.call.id)

/-- An answer goes to the first exchange without one. -/
lemma answerFirst_append_of_answered {done : List Exchange} (hdone : ∀ e ∈ done, e.answer ≠ none)
    (id : String) (m : ChatMessage) (es : List Exchange) :
    answerFirst id m (done ++ es) = done ++ answerFirst id m es := by
  induction done with
  | nil => rfl
  | cons e done ih =>
    rw [List.cons_append, answerFirst, if_neg fun h => hdone e List.mem_cons_self h.2,
      ih fun e' he' => hdone e' (List.mem_cons_of_mem e he'), List.cons_append]

/-- A tool message answers an exchange. -/
lemma exchangesFrom_answer {m : ChatMessage} {id : String} (hrole : m.role = .tool)
    (hid : m.toolCallId = some id) (es : List Exchange) (ms : List ChatMessage) :
    exchangesFrom es (m :: ms) = exchangesFrom (answerFirst id m es) ms := by
  simp only [exchangesFrom, hrole, hid]

/-- Any other message starts new exchanges. -/
lemma exchangesFrom_spoken {m : ChatMessage} (hrole : m.role ≠ .tool) (es : List Exchange)
    (ms : List ChatMessage) : exchangesFrom es (m :: ms) =
      es ++ exchangesFrom (m.issued.map fun c => { call := c }) ms := by
  rw [exchangesFrom]
  split
  · contradiction
  · rfl

/-- The placeholders go to the calls without an answer, each to its own. -/
lemma exchangesFrom_placeholders {done : List Exchange} (hdone : ∀ e ∈ done, e.answer ≠ none)
    (es : List Exchange) (ms : List ChatMessage) :
    exchangesFrom (done ++ es) ((unanswered es).map placeholder ++ ms) =
      exchangesFrom (done ++ es.map Exchange.fill) ms := by
  induction es generalizing done with
  | nil => rfl
  | cons e es ih =>
    have hdone' : ∀ e' ∈ done ++ [e.fill], e'.answer ≠ none := by
      intro e' he'
      rcases List.mem_append.mp he' with he' | he'
      · exact hdone e' he'
      · rw [List.mem_singleton.mp he']
        exact Option.some_ne_none _
    have hrest := ih hdone'
    rw [List.append_assoc, List.append_assoc, List.singleton_append, List.singleton_append] at hrest
    rw [List.map_cons, ← hrest]
    cases he : e.answer with
    | some a =>
      -- an answered call is passed over
      rw [unanswered, List.filter_cons_of_neg (by simp [he])]
      have hfill : e.fill = e := by
        obtain ⟨call, answer⟩ := e
        obtain rfl : answer = some a := he
        rfl
      rw [hfill]
      rfl
    | none =>
      -- its placeholder is the next message, and the calls before it have their answers
      rw [unanswered, List.filter_cons_of_pos (by simp [he]), List.map_cons, List.map_cons,
        List.cons_append, exchangesFrom_answer rfl rfl, answerFirst_append_of_answered hdone,
        answerFirst, if_pos ⟨rfl, he⟩]
      rw [show e.fill = { e with answer := some (placeholder e.call.id) } by
        simp [Exchange.fill, he]]
      rfl

/-- The current calls of the input and of the output side by side: the same answers, and the calls
without one are the pending renamings. -/
inductive Tracks : List Exchange → List Exchange → List (String × String) → Prop
  | nil : Tracks [] [] []
  | answered {e e' : Exchange} {es es' : List Exchange} {ps : List (String × String)}
      (heq : e'.eraseIds = e.eraseIds) (hans : e.answer ≠ none) (h : Tracks es es' ps) :
      Tracks (e :: es) (e' :: es') ps
  | pending {c c' : ToolCallRequest} {es es' : List Exchange} {ps : List (String × String)}
      (heq : { c' with id := "" } = { c with id := "" }) (h : Tracks es es' ps) :
      Tracks ({ call := c } :: es) ({ call := c' } :: es') ((c.id, c'.id) :: ps)

namespace Tracks

variable {es es' : List Exchange} {ps : List (String × String)}

/-- The exchanges of new calls are tracked by the renames that are noted. -/
lemma newCalls (n : ℕ) (calls : List ToolCallRequest) :
    Tracks (calls.map fun c => { call := c }) ((renameCalls n calls).map fun c => { call := c })
      (newRenames n calls) := by
  induction calls generalizing n with
  | nil => exact .nil
  | cons c calls ih => exact .pending rfl (ih (n + 1))

/-- An exchange that is answered is so with other ids. -/
lemma answer_ne_none {e e' : Exchange} (heq : e'.eraseIds = e.eraseIds) (hans : e.answer ≠ none) :
    e'.answer ≠ none := by
  have h := congrArg Exchange.answer heq
  intro hnone
  simp only [Exchange.eraseIds, hnone, Option.map_none] at h
  exact hans (Option.map_eq_none_iff.mp h.symm)

/-- What is pending are the unanswered exchanges. -/
lemma unanswered_eq (h : Tracks es es' ps) : unanswered es' = ps.map (·.2) := by
  induction h with
  | nil => rfl
  | answered heq hans h ih =>
    rw [unanswered, List.filter_cons_of_neg (by simpa using answer_ne_none heq hans)]
    exact ih
  | pending heq h ih =>
    rw [unanswered, List.filter_cons_of_pos (by simp), List.map_cons, List.map_cons]
    exact congrArg _ ih

/-- Without a pending renaming the answer has no call to go to. -/
lemma answerFirst_eq_self (h : Tracks es es' ps) {id : String} (hno : ∀ p ∈ ps, p.1 ≠ id)
    (m : ChatMessage) : answerFirst id m es = es := by
  induction h with
  | nil => rfl
  | answered heq hans h ih => rw [answerFirst, if_neg fun h => hans h.2, ih hno]
  | pending heq h ih =>
    rw [answerFirst, if_neg fun h => hno _ List.mem_cons_self h.1,
      ih fun p hp => hno p (List.mem_cons_of_mem _ hp)]

/-- A renamed answer goes to the call it answered before. -/
lemma answerFirst_both (h : Tracks es es' ps) (hnodup : (ps.map (·.2)).Nodup) {id : String}
    {p : String × String} (hp : ps.find? (·.1 == id) = some p) {m m' : ChatMessage}
    (hm : m'.eraseIds = m.eraseIds) :
    Tracks (answerFirst id m es) (answerFirst p.2 m' es') (ps.eraseP (·.1 == id)) := by
  induction h with
  | nil => simp at hp
  | answered heq hans h ih =>
    rw [answerFirst, if_neg fun h => hans h.2, answerFirst,
      if_neg fun h => answer_ne_none heq hans h.2]
    exact .answered heq hans (ih hnodup hp)
  | @pending c c' es es' ps heq h ih =>
    rw [List.map_cons, List.nodup_cons] at hnodup
    by_cases hid : c.id = id
    · obtain rfl : (c.id, c'.id) = p := by simpa [hid] using hp
      rw [answerFirst, if_pos ⟨hid, rfl⟩, answerFirst, if_pos ⟨rfl, rfl⟩,
        List.eraseP_cons_of_pos (p := fun r : String × String => r.1 == id) (by simpa using hid)]
      exact .answered (by simp [Exchange.eraseIds, heq, hm]) (Option.some_ne_none _) h
    · rw [List.find?_cons_of_neg (by simpa using hid)] at hp
      -- The new ids are distinct, so the renamed answer passes over this call as well.
      have hne : c'.id ≠ p.2 := by
        intro hc
        apply hnodup.1
        rw [hc]
        exact List.mem_map.mpr ⟨p, List.mem_of_find?_eq_some hp, rfl⟩
      rw [answerFirst, if_neg fun h => hid h.1, answerFirst, if_neg fun h => hne h.1,
        List.eraseP_cons_of_neg (p := fun r : String × String => r.1 == id) (by simpa using hid)]
      exact .pending heq (ih hnodup.2 hp)

/-- Filled up with placeholders, the two sides agree up to ids. -/
lemma map_fill (h : Tracks es es' ps) :
    (es'.map Exchange.fill).map Exchange.eraseIds = es.map fun e => e.eraseIds.fill := by
  induction h with
  | nil => rfl
  | @answered e e' es es' ps heq hans h ih =>
    have hfill : ∀ e : Exchange, e.answer ≠ none → e.fill.eraseIds = e.eraseIds.fill := by
      intro e he
      obtain ⟨a, ha⟩ := Option.ne_none_iff_exists'.mp he
      simp [Exchange.fill, Exchange.eraseIds, ha]
    rw [List.map_cons, List.map_cons, List.map_cons, ih, hfill e' (answer_ne_none heq hans), heq]
  | pending heq h ih =>
    rw [List.map_cons, List.map_cons, List.map_cons, ih]
    simp [Exchange.fill, Exchange.eraseIds, heq, placeholder, ChatMessage.eraseIds,
      ChatMessage.renameIds]

end Tracks

/-- Every call of the output gets the answer it got in the input, or a placeholder. -/
theorem exchanges_sanitizeFrom {es es' : List Exchange} {st : RenameState}
    (htracks : Tracks es es' st.pendingRenames) (hnodup : (st.pendingRenames.map (·.2)).Nodup)
    (ms : List ChatMessage) :
    (exchangesFrom es' (sanitizeFrom st ms)).map Exchange.eraseIds =
      (exchangesFrom es ms).map fun e => e.eraseIds.fill := by
  -- The flush closes the current calls of the output before the next ones open.
  have hflush : ∀ {es es' : List Exchange} {st : RenameState} (rest : List ChatMessage),
      Tracks es es' st.pendingRenames → exchangesFrom es' (flushPending st ++ rest) =
        exchangesFrom (es'.map Exchange.fill) rest := by
    intro es es' st rest htracks
    have hall := @exchangesFrom_placeholders [] (by simp) es' rest
    rwa [List.nil_append, List.nil_append, htracks.unanswered_eq, List.map_map] at hall
  induction ms generalizing es es' st with
  | nil =>
    have hend := hflush [] htracks
    rw [List.append_nil] at hend
    rw [sanitizeFrom, hend]
    exact htracks.map_fill
  | cons m ms ih =>
    rw [sanitizeFrom]
    have view := sanitizeStep_view st m
    generalize sanitizeStep st m = r at view
    cases view with
    | dropped hrole hno =>
      rw [List.nil_append, ih htracks hnodup]
      cases hid : m.toolCallId with
      | none => simp only [exchangesFrom, hrole, hid]
      | some id =>
        rw [exchangesFrom_answer hrole hid, htracks.answerFirst_eq_self (hno id hid)]
    | @answered id p hrole hid hp =>
      have herase : { m with toolCallId := some p.2 }.eraseIds = m.eraseIds := by
        simp [ChatMessage.eraseIds, ChatMessage.renameIds, hrole, hid]
      rw [List.singleton_append,
        exchangesFrom_answer (m := { m with toolCallId := some p.2 }) hrole rfl,
        exchangesFrom_answer hrole hid]
      refine ih (htracks.answerFirst_both hnodup hp herase) ?_
      exact hnodup.sublist (List.eraseP_sublist.map _)
    | spoken hrole =>
      rw [List.append_assoc, hflush _ htracks, List.singleton_append,
        exchangesFrom_spoken (by simpa using hrole), exchangesFrom_spoken hrole,
        issued_renameIssued, List.map_append, List.map_append, htracks.map_fill]
      congr 1
      refine @ih _ _ { pendingRenames := newRenames st.callCounter m.issued, .. }
        (Tracks.newCalls _ _) ?_
      rw [map_snd_newRenames, map_id_renameCalls]
      exact nodup_fresh _ _

/-! ### Well-formed histories are renamed -/

/-- The original id of a matched call is taken out of the pending ones. -/
lemma map_fst_eraseP (ps : List (String × String)) (id : String) :
    (ps.eraseP (·.1 == id)).map (·.1) = (ps.map (·.1)).erase id := by
  induction ps with
  | nil => rfl
  | cons q ps ih =>
    rw [List.map_cons, List.eraseP_cons, List.erase_cons]
    cases hq : q.1 == id with
    | true => rfl
    | false => exact congrArg (q.1 :: ·) ih

/-- A renaming gives the first of the calls the first fresh id and the rest the ones after it. -/
lemma fresh_cons {ρ : String → String} {n : ℕ} {c : ToolCallRequest} {calls : List ToolCallRequest}
    (h : ((c :: calls).map (·.id)).map ρ = (List.range' n (calls.length + 1)).map freshId) :
    ρ c.id = freshId n ∧
      (calls.map (·.id)).map ρ = (List.range' (n + 1) calls.length).map freshId := by
  rw [List.map_cons, List.map_cons, List.range'_succ, List.map_cons, List.cons.injEq] at h
  exact h

/-- Renaming in a row is renaming by a function that gives these ids. -/
lemma renameCalls_eq_map {ρ : String → String} {n : ℕ} {calls : List ToolCallRequest}
    (h : (calls.map (·.id)).map ρ = (List.range' n calls.length).map freshId) :
    renameCalls n calls = calls.map fun c => { c with id := ρ c.id } := by
  induction calls generalizing n with
  | nil => rfl
  | cons c calls ih =>
    obtain ⟨hc, hcalls⟩ := fresh_cons h
    rw [renameCalls, ih hcalls, List.map_cons, hc]

/-- So is what is noted. -/
lemma newRenames_eq_map {ρ : String → String} {n : ℕ} {calls : List ToolCallRequest}
    (h : (calls.map (·.id)).map ρ = (List.range' n calls.length).map freshId) :
    newRenames n calls = calls.map fun c => (c.id, ρ c.id) := by
  induction calls generalizing n with
  | nil => rfl
  | cons c calls ih =>
    obtain ⟨hc, hcalls⟩ := fresh_cons h
    rw [newRenames, ih hcalls, List.map_cons, hc]

/-- And so is a message. -/
lemma renameIssued_eq_renameIds {ρ : String → String} {n : ℕ} {m : ChatMessage}
    (hrole : m.role ≠ .tool)
    (h : (m.issued.map (·.id)).map ρ = (List.range' n m.issued.length).map freshId) :
    renameIssued n m = m.renameIds ρ := by
  obtain ⟨role, content, calls, toolCallId, toolName, pinned⟩ := m
  cases role with
  | tool => exact absurd rfl hrole
  | assistant =>
    cases calls with
    | none => rfl
    | some calls =>
      have hcalls := renameCalls_eq_map h
      simp only [ChatMessage.issued, if_true, Option.getD_some] at hcalls
      simp [renameIssued, ChatMessage.renameIds, hcalls]
  | user | system => rfl

/-- A renaming that sends the issued ids to the fresh ones is all the loop does to a history whose
calls are all answered. -/
theorem sanitizeFrom_eq_map {ρ : String → String} {st : RenameState} {ms : List ChatMessage}
    (hps : ∀ p ∈ st.pendingRenames, p.2 = ρ p.1)
    (hans : Answered (st.pendingRenames.map (·.1)) ms)
    (hissued : (issuedIds ms).map ρ =
      (List.range' st.callCounter (issuedIds ms).length).map freshId) :
    sanitizeFrom st ms = ms.map (ChatMessage.renameIds ρ) := by
  induction ms generalizing st with
  | nil =>
    rw [Answered, List.map_eq_nil_iff] at hans
    rw [sanitizeFrom, flushPending, hans]
    rfl
  | cons m ms ih =>
    rw [sanitizeFrom]
    have view := sanitizeStep_view st m
    generalize sanitizeStep st m = r at view
    cases view with
    | dropped hrole hno =>
      -- A well-formed history has no answer without a call.
      simp only [Answered, hrole] at hans
      obtain ⟨id, hmem, hid, -⟩ := hans
      obtain ⟨p, hp, hpid⟩ := List.mem_map.mp hmem
      exact absurd hpid (hno id hid p hp)
    | @answered id p hrole hid hp =>
      simp only [Answered, hrole] at hans
      obtain ⟨id', -, hid', hans⟩ := hans
      obtain rfl : id = id' := Option.some.inj (hid.symm.trans hid')
      have hpid : p.1 = id := by simpa using List.find?_some hp
      have hpρ : p.2 = ρ id := hpid ▸ hps p (List.mem_of_find?_eq_some hp)
      rw [issuedIds_cons, issued_of_tool hrole, List.map_nil, List.nil_append] at hissued
      rw [List.map_cons, List.singleton_append,
        @ih { st with pendingRenames := st.pendingRenames.eraseP (·.1 == id) }
          (fun q hq => hps q (List.mem_of_mem_eraseP hq)) (by rwa [map_fst_eraseP]) hissued]
      simp [ChatMessage.renameIds, hrole, hid, hpρ]
    | spoken hrole =>
      have hnil : st.pendingRenames = [] := by
        rw [Answered] at hans
        split at hans
        · contradiction
        · exact List.map_eq_nil_iff.mp hans.1
      rw [hnil, List.map_nil, answered_nil_spoken hrole] at hans
      rw [issuedIds_cons, List.map_append, List.length_append, List.length_map,
        ← List.range'_append_1, List.map_append] at hissued
      obtain ⟨hm, hrest⟩ := List.append_inj hissued (by simp)
      rw [flushPending, hnil, List.map_nil, List.nil_append, List.singleton_append, List.map_cons,
        renameIssued_eq_renameIds hrole hm, newRenames_eq_map hm]
      congr 1
      refine @ih { pendingRenames := m.issued.map fun c => (c.id, ρ c.id), .. } ?_ ?_ hrest
      · intro p hp
        obtain ⟨c, -, rfl⟩ := List.mem_map.mp hp
        rfl
      · rwa [List.map_map]

/-- Renaming by the identity changes nothing. -/
lemma renameIds_id (m : ChatMessage) : m.renameIds id = m := by
  obtain ⟨role, content, calls, toolCallId, toolName, pinned⟩ := m
  cases role <;> cases calls <;> cases toolCallId <;>
    simp [ChatMessage.renameIds]

/-- The ids of a well-formed history can be sent to the fresh ones in order, two to different
ones. -/
lemma exists_renaming {l : List String} (hl : l.Nodup) :
    ∃ ρ : String → String, (∀ a ∈ l, ∀ b ∈ l, ρ a = ρ b → a = b) ∧
      l.map ρ = (List.range' 0 l.length).map freshId := by
  refine ⟨fun a => freshId (l.idxOf a), ?_, ?_⟩
  · intro a ha b hb h
    exact (List.idxOf_inj ha).mp (freshId_injective h)
  · apply List.ext_getElem
    · simp
    · intro i h₁ h₂
      rw [List.length_map] at h₁
      simp [hl.idxOf_getElem i h₁]

/-! ### The repair -/

/-- `sanitize_messages_for_tool_calls` repairs every history: the output is well formed, the
messages that are no answers stay as they are in order, every call keeps its answer or gets a
placeholder, a well-formed history is only renamed, and a second pass changes nothing. -/
theorem sanitizeMessagesForToolCalls_repairs (ms : List ChatMessage) :
    WellFormedHistory (sanitizeMessagesForToolCalls ms) ∧
    ((sanitizeMessagesForToolCalls ms).filter (·.role != .tool)).map ChatMessage.eraseIds =
      (ms.filter (·.role != .tool)).map ChatMessage.eraseIds ∧
    (exchanges (sanitizeMessagesForToolCalls ms)).map Exchange.eraseIds =
      (exchanges ms).map (fun e => e.eraseIds.fill) ∧
    (WellFormedHistory ms → ∃ ρ : String → String,
      (∀ a ∈ issuedIds ms, ∀ b ∈ issuedIds ms, ρ a = ρ b → a = b) ∧
      sanitizeMessagesForToolCalls ms = ms.map (ChatMessage.renameIds ρ)) ∧
    sanitizeMessagesForToolCalls (sanitizeMessagesForToolCalls ms) =
      sanitizeMessagesForToolCalls ms := by
  have hissued := issuedIds_sanitizeFrom ⟨[], 0⟩ ms
  have hans : Answered [] (sanitizeMessagesForToolCalls ms) :=
    answered_sanitizeFrom ⟨[], 0⟩ ms List.nodup_nil
  refine ⟨⟨?_, hans⟩, filter_sanitizeFrom ⟨[], 0⟩ ms, ?_, ?_, ?_⟩
  · rw [sanitizeMessagesForToolCalls, hissued]
    exact nodup_fresh _ _
  · exact @exchanges_sanitizeFrom [] [] ⟨[], 0⟩ .nil List.nodup_nil ms
  · rintro ⟨hnodup, hans⟩
    obtain ⟨ρ, hinj, hρ⟩ := exists_renaming hnodup
    exact ⟨ρ, hinj, @sanitizeFrom_eq_map ρ ⟨[], 0⟩ ms (by simp) hans hρ⟩
  · -- The output already carries the fresh ids, so its renaming is the identity.
    have hfix : sanitizeMessagesForToolCalls (sanitizeMessagesForToolCalls ms) =
        (sanitizeMessagesForToolCalls ms).map (ChatMessage.renameIds id) := by
      refine @sanitizeFrom_eq_map id ⟨[], 0⟩ _ (by simp) hans ?_
      rw [List.map_id, sanitizeMessagesForToolCalls, hissued, List.length_map, List.length_range']
    rw [hfix, List.map_congr_left fun m _ => renameIds_id m, List.map_id']

end Lace.LLM
