import Mathlib.Data.Int.Notation
import Mathlib.Data.List.TakeWhile
import Lace.Library.Machine
import Lace.LLM.Message

/-!
# Conversations

`Conversation`: the history of one agent, the loop of `send_message` that asks the model and
executes the tools it calls, and the pruning of the history by message count. The pruning by
tokens is off (`max_tokens_` is `0`).

## Main definitions

* `pruneHistoryByCount`: the pruning step of the source.
* `Conversation.step`: one step of a conversation, between two appended messages.
* `NoOrphans`, `Conversation.Good`: what the history promises at every point.

## Main results

* `Conversation.good_iff_withinWindow`: a run keeps the promise exactly if every turn stays within
  the window when its next result is appended and when the next request is made.
-/

namespace Lace.LLM

/-- `prune_history_by_count`: with more than `limit` messages, drop the oldest ones behind the
system prompt, and go on dropping while the first kept one is a tool message. -/
def pruneHistoryByCount (limit : ℕ) (history : List ChatMessage) : List ChatMessage :=
  let currentSize := history.length
  if currentSize ≤ limit then history
  else
    match history with
    | [] => []
    | first :: rest =>
      if first.role = .system then
        let numToRemove := min (currentSize - limit) (currentSize - 1)
        first :: (rest.drop numToRemove).dropWhile (·.role == .tool)
      else
        let numToRemove := min (currentSize - limit) currentSize
        (history.drop numToRemove).dropWhile (·.role == .tool)

/-- The members of `Conversation` that bound it. -/
structure ConversationConfig where
  /-- `max_history_messages_`. -/
  maxHistoryMessages : ℕ
  /-- `max_turns_`; no cap unless positive. -/
  maxTurns : ℤ := 0

/-- Where `send_message` stands. -/
inductive Phase
  /-- Between two calls of `send_message`. -/
  | idle
  /-- At the head of the loop, after so many turns. -/
  | loopHead (turn : ℕ)
  /-- In `chat`, which was given the history. -/
  | requesting (turn : ℕ)
  /-- In the loop over the tool calls of the reply. -/
  | executing (turn : ℕ) (toolRequests : List ToolCallRequest)
  deriving DecidableEq

/-- A conversation. -/
structure Conversation where
  /-- `history_`. -/
  history : List ChatMessage := []
  /-- Where `send_message` stands. -/
  phase : Phase := .idle
  /-- The reply of the current turn and the tool results appended for it so far. -/
  turnMessages : List ChatMessage := []

/-- What drives a conversation: its owner, the model and the tools. -/
inductive ConversationEvent
  /-- `set_system_prompt`, with the effective prompt. -/
  | setSystemPrompt (prompt : String)
  /-- `reset`. -/
  | reset
  /-- `send_message` is called. -/
  | sendMessage (prompt userMessage : String) (pinned : Bool)
  /-- The turn cap ends the call. -/
  | turnCap
  /-- `chat` is called, with the prompt refreshed. -/
  | request (prompt : String)
  /-- `chat` returns. -/
  | reply (content : String) (toolRequests : Option (List ToolCallRequest))
  /-- The next tool returns. -/
  | toolResult (content : String)
  /-- `chat` or a tool throws out of `send_message`. -/
  | throws

/-- The system prompt is updated in place or put in front. -/
def setSystem (prompt : String) : List ChatMessage → List ChatMessage
  | [] => [{ role := .system, content := prompt }]
  | first :: rest =>
    if first.role = .system then { first with content := prompt } :: rest
    else { role := .system, content := prompt } :: first :: rest

/-- The system prompt is updated if there is one. -/
def refreshSystem (prompt : String) : List ChatMessage → List ChatMessage
  | [] => []
  | first :: rest =>
    if first.role = .system then { first with content := prompt } :: rest else first :: rest

/-- The reply of the model as a message; an empty list of tool calls counts as none. -/
def assistantMessage (content : String) (toolRequests : Option (List ToolCallRequest)) :
    ChatMessage :=
  { role := .assistant
    content := content
    toolCalls := toolRequests.filter (!·.isEmpty) }

/-- The result of a tool call as a message. -/
def toolResponse (toolReq : ToolCallRequest) (content : String) : ChatMessage :=
  { role := .tool
    content := content
    toolCallId := some toolReq.id
    toolName := some toolReq.toolname }

/-! ### What the history promises -/

/-- The calls a tool message may answer after `m`, if it could answer `ids` before. -/
def nextIds (ids : List String) (m : ChatMessage) : List String :=
  if m.role = .tool then ids else m.issued.map (·.id)

/-- Every tool message answers a call of the latest message that is none, `ids` being those open at
the start. -/
def NoOrphansFrom : List String → List ChatMessage → Prop
  | _, [] => True
  | ids, m :: ms =>
    (m.role = .tool → ∃ id ∈ ids, m.toolCallId = some id) ∧ NoOrphansFrom (nextIds ids m) ms

/-- Each tool message is preceded, with only tool messages in between, by the assistant message
that issued its call. -/
def NoOrphans (history : List ChatMessage) : Prop :=
  NoOrphansFrom [] history

instance decidableNoOrphansFrom (ids : List String) (ms : List ChatMessage) :
    Decidable (NoOrphansFrom ids ms) :=
  match ms with
  | [] => inferInstanceAs (Decidable True)
  | m :: ms =>
    have := decidableNoOrphansFrom (nextIds ids m) ms
    inferInstanceAs (Decidable
      ((m.role = .tool → ∃ id ∈ ids, m.toolCallId = some id) ∧ NoOrphansFrom (nextIds ids m) ms))

instance (history : List ChatMessage) : Decidable (NoOrphans history) :=
  decidableNoOrphansFrom [] history

lemma noOrphansFrom_append {ids : List String} {ms ms' : List ChatMessage} :
    NoOrphansFrom ids (ms ++ ms') ↔
      NoOrphansFrom ids ms ∧ NoOrphansFrom (ms.foldl nextIds ids) ms' := by
  induction ms generalizing ids with
  | nil => simp [NoOrphansFrom]
  | cons m ms ih =>
    rw [List.cons_append, NoOrphansFrom, ih, NoOrphansFrom, List.foldl_cons, and_assoc]

/-- Tool messages leave the open calls as they are. -/
lemma foldl_nextIds_of_tools {ts : List ChatMessage} (hts : ∀ m ∈ ts, m.role = .tool)
    (ids : List String) : ts.foldl nextIds ids = ids := by
  induction ts with
  | nil => rfl
  | cons m ts ih =>
    rw [List.foldl_cons, nextIds, if_pos (hts m List.mem_cons_self)]
    exact ih fun m hm => hts m (List.mem_cons_of_mem _ hm)

/-- What starts with no tool message stands on its own. -/
lemma noOrphansFrom_of_head {ids ids' : List String} {m : ChatMessage} {ms : List ChatMessage}
    (hrole : m.role ≠ .tool) (h : NoOrphansFrom ids (m :: ms)) : NoOrphansFrom ids' (m :: ms) := by
  rw [NoOrphansFrom, nextIds, if_neg hrole] at h ⊢
  exact ⟨fun htool => absurd htool hrole, h.2⟩

/-- Dropping from the front, up to a message that is no tool message, orphans no answer. -/
lemma noOrphansFrom_dropWhile {ids ids' : List String} {ms : List ChatMessage} (n : ℕ)
    (h : NoOrphansFrom ids ms) :
    NoOrphansFrom ids' ((ms.drop n).dropWhile (·.role == .tool)) := by
  have hsuffix : (ms.drop n).dropWhile (·.role == .tool) <:+ ms :=
    (List.dropWhile_suffix _).trans (List.drop_suffix n ms)
  obtain ⟨pre, hpre⟩ := hsuffix
  rw [← hpre, noOrphansFrom_append] at h
  cases hrest : (ms.drop n).dropWhile (·.role == .tool) with
  | nil => trivial
  | cons m rest =>
    have hhead := List.head?_dropWhile_not (·.role == .tool) (ms.drop n)
    rw [hrest] at hhead h
    exact noOrphansFrom_of_head (by simpa using hhead) h.2

/-! ### The window behind the system prompt -/

/-- What appending and pruning does behind the system prompt, with room for `w` messages there. -/
def slide (w : ℕ) (rest : List ChatMessage) (m : ChatMessage) : List ChatMessage :=
  if rest.length < w then rest ++ [m]
  else ((rest ++ [m]).drop 1).dropWhile (·.role == .tool)

lemma pruneHistoryByCount_of_le {limit : ℕ} {history : List ChatMessage}
    (h : history.length ≤ limit) : pruneHistoryByCount limit history = history :=
  if_pos h

lemma pruneHistoryByCount_append {w : ℕ} {first : ChatMessage} (hfirst : first.role = .system)
    {rest : List ChatMessage} (hrest : rest.length ≤ w) (m : ChatMessage) :
    pruneHistoryByCount (w + 1) (first :: rest ++ [m]) = first :: slide w rest m := by
  by_cases hw : rest.length < w
  · rw [pruneHistoryByCount_of_le (by simpa [Nat.succ_le_iff] using hw), slide, if_pos hw,
      List.cons_append]
  · have hlen : rest.length = w := by omega
    have hsize : (first :: (rest ++ [m])).length = w + 2 := by simp [hlen]
    rw [pruneHistoryByCount.eq_def, List.cons_append]
    simp only [hsize, slide, if_neg hw, if_pos hfirst]
    rw [if_neg (by omega)]
    congr 3
    omega

lemma length_slide_le {w : ℕ} {rest : List ChatMessage} (hrest : rest.length ≤ w)
    (m : ChatMessage) : (slide w rest m).length ≤ w := by
  rw [slide]
  split_ifs with hw
  · simpa [Nat.succ_le_iff] using hw
  · refine Nat.le_trans (List.dropWhile_suffix _).length_le ?_
    simpa using hrest

lemma noOrphansFrom_slide {w : ℕ} {rest : List ChatMessage} {m : ChatMessage} {ids : List String}
    (h : NoOrphansFrom ids (rest ++ [m])) : NoOrphansFrom ids (slide w rest m) := by
  rw [slide]
  split_ifs
  · exact h
  · exact noOrphansFrom_dropWhile 1 h

/-- A turn that leaves room for its next message is kept as a whole. -/
lemma suffix_slide {w : ℕ} {T rest : List ChatMessage} {m : ChatMessage} (hT : T <:+ rest)
    (hrest : rest.length ≤ w) (hroom : T.length < w)
    (hhead : ∀ a, (T ++ [m]).head? = some a → a.role ≠ .tool) : T ++ [m] <:+ slide w rest m := by
  have hTm : T ++ [m] <:+ rest ++ [m] := by
    obtain ⟨pre, rfl⟩ := hT
    exact ⟨pre, by rw [List.append_assoc]⟩
  rw [slide]
  split_ifs with hw
  · exact hTm
  · -- One message goes; the turn is shorter than the window, so it is not the one.
    have hdrop : T ++ [m] <:+ (rest ++ [m]).drop 1 := by
      refine List.suffix_of_suffix_length_le hTm (List.drop_suffix 1 _) ?_
      simp only [List.length_append, List.length_drop, List.length_singleton]
      omega
    obtain ⟨pre, hpre⟩ := hdrop
    cases hTm' : T ++ [m] with
    | nil => exact absurd hTm' (by simp)
    | cons a l =>
      have ha : ¬ (a.role == .tool) = true := by simpa using hhead a (by rw [hTm']; rfl)
      rw [← hpre, hTm', List.dropWhile_append]
      split_ifs
      · simp only [List.dropWhile_cons_of_neg (p := fun x : ChatMessage => x.role == .tool) ha,
          List.suffix_rfl]
      · exact List.suffix_append _ _

/-- A turn that fills the window is dropped as a whole by its next tool result. -/
lemma slide_eq_nil {w : ℕ} {a m : ChatMessage} {ts : List ChatMessage}
    (hlen : (a :: ts).length = w) (htool : ∀ t ∈ ts ++ [m], t.role = .tool) :
    slide w (a :: ts) m = [] := by
  rw [slide, if_neg (by omega), List.cons_append, List.drop_succ_cons, List.drop_zero,
    List.dropWhile_eq_nil_iff]
  simpa using htool

namespace Conversation

variable (cfg : ConversationConfig)

/-- `turn >= max_turns_` with a cap set. -/
def turnCapReached (turn : ℕ) : Bool :=
  0 < cfg.maxTurns && cfg.maxTurns ≤ turn

/-- `history_.push_back` and `prune_history`. -/
def append (history : List ChatMessage) (m : ChatMessage) : List ChatMessage :=
  pruneHistoryByCount cfg.maxHistoryMessages (history ++ [m])

/-- One step of a conversation; `none` where the source cannot be. -/
def step (s : Conversation) (e : ConversationEvent) : Option Conversation :=
  match s.phase, e with
  | .idle, .setSystemPrompt prompt =>
    some { s with history := pruneHistoryByCount cfg.maxHistoryMessages
                    (setSystem prompt s.history) }
  | .idle, .reset => some { s with history := [] }
  | .idle, .sendMessage prompt userMessage pinned =>
    some
      { history := append cfg (setSystem prompt s.history)
          { role := .user, content := userMessage, pinned := pinned }
        phase := .loopHead 0
        turnMessages := [] }
  | .loopHead turn, .turnCap =>
    if turnCapReached cfg turn then some { s with phase := .idle } else none
  | .loopHead turn, .request prompt =>
    if turnCapReached cfg turn then none
    else some { s with history := refreshSystem prompt s.history, phase := .requesting (turn + 1) }
  | .requesting turn, .reply content toolRequests =>
    let m := assistantMessage content toolRequests
    some
      { history := append cfg s.history m
        phase := match toolRequests.getD [] with
          | [] => .idle
          | reqs => .executing turn reqs
        turnMessages := [m] }
  | .executing turn (toolReq :: rest), .toolResult content =>
    let m := toolResponse toolReq content
    some
      { history := append cfg s.history m
        phase := if content = "finish" then .idle
          else match rest with
            | [] => .loopHead turn
            | reqs => .executing turn reqs
        turnMessages := s.turnMessages ++ [m] }
  | .requesting _, .throws => some { s with phase := .idle }
  | .executing _ _, .throws => some { s with phase := .idle }
  | _, _ => none

/-- The promise: no orphaned tool result, and at a request all results of the current turn are
still there, right behind the message that asked for them. -/
def Good (s : Conversation) : Prop :=
  NoOrphans s.history ∧ ∀ turn, s.phase = .requesting turn → s.turnMessages <:+ s.history

/-- The guard: the turn is shorter than the window when its next result is appended and when the
next request is made. -/
def WithinWindow (s : Conversation) : ConversationEvent → Prop
  | .toolResult _ => s.turnMessages.length < cfg.maxHistoryMessages
  | .request _ => s.turnMessages.length < cfg.maxHistoryMessages
  | _ => True

instance (s : Conversation) (e : ConversationEvent) : Decidable (WithinWindow cfg s e) :=
  match e with
  | .toolResult _ | .request _ =>
    inferInstanceAs (Decidable (s.turnMessages.length < cfg.maxHistoryMessages))
  | .setSystemPrompt _ | .reset | .sendMessage .. | .turnCap | .reply .. | .throws =>
    inferInstanceAs (Decidable True)

/-! ### The invariant -/

/-- A turn: the reply of the model and then tool results. -/
def IsTurn (T : List ChatMessage) : Prop :=
  ∃ a ts, T = a :: ts ∧ a.role = .assistant ∧ ∀ t ∈ ts, t.role = .tool

/-- The turn `T` is the end of the history behind the system prompt, or has filled the window and
is gone. -/
def Kept (w : ℕ) (T rest : List ChatMessage) : Prop :=
  T.length ≤ w ∧ T <:+ rest ∨ T.length = w + 1 ∧ rest = []

/-- What holds behind the system prompt in each phase. -/
def PhaseInv (w : ℕ) (phase : Phase) (T rest : List ChatMessage) : Prop :=
  match phase with
  | .idle => True
  | .loopHead _ => (T = [] ∨ IsTurn T) ∧ Kept w T rest
  | .requesting _ => T <:+ rest
  | .executing _ calls =>
    ∃ a ts, T = a :: ts ∧ a.role = .assistant ∧ (∀ t ∈ ts, t.role = .tool) ∧
      Kept w T rest ∧ calls ⊆ a.issued

/-- The invariant of a conversation whose window holds the system prompt and `w` messages. -/
inductive Inv (w : ℕ) : Conversation → Prop
  /-- Before the first message, or after a reset. -/
  | empty {T : List ChatMessage} : Inv w ⟨[], .idle, T⟩
  /-- A system prompt and the window behind it. -/
  | window {first : ChatMessage} {rest T : List ChatMessage} {phase : Phase}
      (hfirst : first.role = .system) (hlen : rest.length ≤ w) (hno : NoOrphansFrom [] rest)
      (hphase : PhaseInv w phase T rest) : Inv w ⟨first :: rest, phase, T⟩

variable {cfg} {w : ℕ}

lemma issued_eq_nil {m : ChatMessage} (h : m.role ≠ .assistant) : m.issued = [] :=
  if_neg h

lemma nextIds_of_system {first : ChatMessage} (h : first.role = .system) (ids : List String) :
    nextIds ids first = [] := by
  rw [nextIds, if_neg (by simp [h]), issued_eq_nil (by simp [h])]
  rfl

/-- The promise for a history with a system prompt is one about what stands behind it. -/
lemma noOrphans_cons {first : ChatMessage} (h : first.role = .system) (rest : List ChatMessage) :
    NoOrphans (first :: rest) ↔ NoOrphansFrom [] rest := by
  rw [NoOrphans, NoOrphansFrom, nextIds_of_system h]
  simp [h]

/-- The invariant implies the promise. -/
theorem Inv.good {s : Conversation} (h : Inv w s) : Good s := by
  cases h with
  | empty => exact ⟨trivial, fun turn hturn => Phase.noConfusion hturn⟩
  | @window first rest T phase hfirst hlen hno hphase =>
    refine ⟨(noOrphans_cons hfirst rest).mpr hno, fun turn hturn => ?_⟩
    obtain rfl : phase = .requesting turn := hturn
    exact List.IsSuffix.trans hphase (List.suffix_cons first rest)

lemma append_cons (hcfg : cfg.maxHistoryMessages = w + 1) {first : ChatMessage}
    (hfirst : first.role = .system) {rest : List ChatMessage} (hlen : rest.length ≤ w)
    (m : ChatMessage) : append cfg (first :: rest) m = first :: slide w rest m := by
  rw [append, hcfg, pruneHistoryByCount_append hfirst hlen]

/-- A message that is no tool message goes behind the others. -/
lemma noOrphansFrom_concat {rest : List ChatMessage} (hno : NoOrphansFrom [] rest)
    {m : ChatMessage} (hm : m.role ≠ .tool) : NoOrphansFrom [] (rest ++ [m]) :=
  noOrphansFrom_append.mpr ⟨hno, fun htool => absurd htool hm, trivial⟩

/-- With its system prompt set, a conversation has a window. -/
lemma Inv.setSystem {s : Conversation} (h : Inv w s) (prompt : String) :
    ∃ first rest, setSystem prompt s.history = first :: rest ∧ first.role = .system ∧
      rest.length ≤ w ∧ NoOrphansFrom [] rest := by
  cases h with
  | empty => exact ⟨_, [], rfl, rfl, Nat.zero_le w, trivial⟩
  | @window first rest T phase hfirst hlen hno hphase =>
    exact ⟨{ first with content := prompt }, rest, if_pos hfirst, hfirst, hlen, hno⟩

lemma issued_assistantMessage {content : String} {toolRequests : Option (List ToolCallRequest)}
    {c : ToolCallRequest} {cs : List ToolCallRequest} (h : toolRequests.getD [] = c :: cs) :
    (assistantMessage content toolRequests).issued = c :: cs := by
  cases toolRequests with
  | none => exact absurd h (by simp)
  | some reqs =>
    obtain rfl : reqs = c :: cs := h
    rfl

/-- The next tool result of a turn within the window. -/
lemma Kept.concat {a t : ChatMessage} {ts rest : List ChatMessage} (ha : a.role = .assistant)
    (hts : ∀ m ∈ ts, m.role = .tool) (ht : t.role = .tool) (hlen : rest.length ≤ w)
    (hroom : (a :: ts).length ≤ w) (hsuffix : a :: ts <:+ rest) :
    Kept w (a :: ts ++ [t]) (slide w rest t) := by
  by_cases hlt : (a :: ts).length < w
  · refine .inl ⟨by simpa [Nat.succ_le_iff] using hlt, suffix_slide hsuffix hlen hlt ?_⟩
    intro m hm
    obtain rfl : a = m := Option.some.inj hm
    rw [ha]
    decide
  · -- The turn is all there is behind the system prompt.
    have heq : a :: ts = rest := hsuffix.eq_of_length (Nat.le_antisymm hsuffix.length_le (by omega))
    refine .inr ⟨by rw [List.length_append, List.length_singleton]; omega, ?_⟩
    rw [← heq]
    refine slide_eq_nil (by omega) fun m hm => ?_
    rcases List.mem_append.mp hm with hm | hm
    · exact hts m hm
    · rw [List.mem_singleton.mp hm, ht]

/-- The answer to a call of the turn has its assistant message in front. -/
lemma noOrphansFrom_result {a t : ChatMessage} {ts rest : List ChatMessage}
    (ha : a.role = .assistant) (hts : ∀ m ∈ ts, m.role = .tool) (hsuffix : a :: ts <:+ rest)
    (hno : NoOrphansFrom [] rest) {c : ToolCallRequest} (hc : c ∈ a.issued)
    (ht : t.toolCallId = some c.id) : NoOrphansFrom [] (rest ++ [t]) := by
  refine noOrphansFrom_append.mpr ⟨hno, fun _ => ⟨c.id, ?_, ht⟩, trivial⟩
  obtain ⟨pre, rfl⟩ := hsuffix
  rw [List.foldl_append, List.foldl_cons, foldl_nextIds_of_tools hts, nextIds,
    if_neg (by simp [ha])]
  exact List.mem_map_of_mem hc

/-- A window that gets a message which is no tool message is still one. -/
lemma Inv.append (hcfg : cfg.maxHistoryMessages = w + 1) {first m : ChatMessage}
    {rest T : List ChatMessage} {phase : Phase} (hfirst : first.role = .system)
    (hlen : rest.length ≤ w) (hno : NoOrphansFrom [] (rest ++ [m]))
    (hphase : PhaseInv w phase T (slide w rest m)) :
    Inv w ⟨Conversation.append cfg (first :: rest) m, phase, T⟩ := by
  rw [append_cons hcfg hfirst hlen]
  exact .window hfirst (length_slide_le hlen m) (noOrphansFrom_slide hno) hphase

variable {s s' : Conversation} {e : ConversationEvent}

/-- What the owner does between two calls keeps the invariant, and so does the start of a call. -/
theorem Inv.step_idle (hcfg : cfg.maxHistoryMessages = w + 1) {history T : List ChatMessage}
    (h : Inv w ⟨history, .idle, T⟩) (hstep : Conversation.step cfg ⟨history, .idle, T⟩ e = some s') :
    Inv w s' := by
  cases e with
  | setSystemPrompt prompt =>
    obtain rfl := Option.some.inj hstep
    obtain ⟨first, rest, hset, hfirst, hlen, hno⟩ := h.setSystem prompt
    rw [hset, hcfg, pruneHistoryByCount_of_le (by simpa using hlen)]
    exact .window hfirst hlen hno trivial
  | reset =>
    obtain rfl := Option.some.inj hstep
    exact .empty
  | sendMessage prompt userMessage pinned =>
    obtain rfl := Option.some.inj hstep
    obtain ⟨first, rest, hset, hfirst, hlen, hno⟩ := h.setSystem prompt
    rw [hset]
    have hrole : MessageRole.user ≠ .tool := by decide
    exact .append hcfg hfirst hlen (noOrphansFrom_concat hno hrole)
      ⟨.inl rfl, .inl ⟨Nat.zero_le w, List.nil_suffix⟩⟩
  | _ => exact absurd hstep (by simp [Conversation.step])

/-- A request within the window is sent with its whole turn. -/
theorem Inv.step_loopHead (hcfg : cfg.maxHistoryMessages = w + 1) {turn : ℕ}
    {first : ChatMessage} {rest T : List ChatMessage} (hfirst : first.role = .system)
    (hlen : rest.length ≤ w) (hno : NoOrphansFrom [] rest)
    (hphase : PhaseInv w (.loopHead turn) T rest)
    (hstep : Conversation.step cfg ⟨first :: rest, .loopHead turn, T⟩ e = some s')
    (hok : WithinWindow cfg ⟨first :: rest, .loopHead turn, T⟩ e) : Inv w s' := by
  cases e with
  | turnCap =>
    simp only [Conversation.step, Option.ite_none_right_eq_some] at hstep
    obtain rfl := Option.some.inj hstep.2
    exact .window hfirst hlen hno trivial
  | request prompt =>
    simp only [Conversation.step, Option.ite_none_left_eq_some] at hstep
    obtain rfl := Option.some.inj hstep.2
    rw [refreshSystem, if_pos hfirst]
    refine .window hfirst hlen hno ?_
    -- The guard leaves only a turn that is still there.
    rcases hphase.2 with ⟨-, hsuffix⟩ | ⟨hfull, -⟩
    · exact hsuffix
    · exact absurd hok (by simp [WithinWindow, hfull, hcfg])
  | _ => exact absurd hstep (by simp [Conversation.step])

/-- A reply starts a turn, or ends the call. -/
theorem Inv.step_requesting (hw : 1 ≤ w) (hcfg : cfg.maxHistoryMessages = w + 1) {turn : ℕ}
    {first : ChatMessage} {rest T : List ChatMessage} (hfirst : first.role = .system)
    (hlen : rest.length ≤ w) (hno : NoOrphansFrom [] rest)
    (hstep : Conversation.step cfg ⟨first :: rest, .requesting turn, T⟩ e = some s') :
    Inv w s' := by
  cases e with
  | reply content toolRequests =>
    obtain rfl := Option.some.inj hstep
    have hrole : (assistantMessage content toolRequests).role ≠ .tool := by simp [assistantMessage]
    refine .append hcfg hfirst hlen (noOrphansFrom_concat hno hrole) ?_
    cases hreqs : toolRequests.getD [] with
    | nil => trivial
    | cons c cs =>
      refine ⟨assistantMessage content toolRequests, [], rfl, rfl, by simp, .inl ⟨hw, ?_⟩, ?_⟩
      · refine suffix_slide (T := []) List.nil_suffix hlen hw ?_
        intro a ha
        obtain rfl : assistantMessage content toolRequests = a := Option.some.inj ha
        exact MessageRole.noConfusion
      · rw [issued_assistantMessage hreqs]
        exact List.Subset.refl _
  | throws =>
    obtain rfl := Option.some.inj hstep
    exact .window hfirst hlen hno trivial
  | _ => exact absurd hstep (by simp [Conversation.step])

/-- The result of a tool within the window goes behind its turn. -/
theorem Inv.step_toolResult (hcfg : cfg.maxHistoryMessages = w + 1) {turn : ℕ}
    {c : ToolCallRequest} {cs : List ToolCallRequest} {content : String} {first : ChatMessage}
    {rest T : List ChatMessage} (hfirst : first.role = .system) (hlen : rest.length ≤ w)
    (hno : NoOrphansFrom [] rest) (hphase : PhaseInv w (.executing turn (c :: cs)) T rest)
    (hstep : Conversation.step cfg ⟨first :: rest, .executing turn (c :: cs), T⟩
      (.toolResult content) = some s') (hok : T.length < cfg.maxHistoryMessages) : Inv w s' := by
  obtain rfl := Option.some.inj hstep
  obtain ⟨a, ts, rfl, ha, hts, hkept, hcalls⟩ := hphase
  -- The guard leaves only a turn that is still there.
  have hroom : (a :: ts).length < w + 1 := hcfg ▸ hok
  obtain ⟨-, hsuffix⟩ : (a :: ts).length ≤ w ∧ a :: ts <:+ rest := by
    rcases hkept with h | ⟨hfull, -⟩
    · exact h
    · omega
  have hno' := noOrphansFrom_result (t := toolResponse c content) ha hts hsuffix hno
    (hcalls List.mem_cons_self) rfl
  have hkept' := Kept.concat (t := toolResponse c content) ha hts rfl hlen
    (Nat.le_of_lt_succ hroom) hsuffix
  have hts' : ∀ t ∈ ts ++ [toolResponse c content], t.role = .tool := by
    intro t ht
    rcases List.mem_append.mp ht with ht | ht
    · exact hts t ht
    · rw [List.mem_singleton.mp ht]
      rfl
  refine .append hcfg hfirst hlen hno' ?_
  split_ifs
  · trivial
  · cases cs with
    | nil => exact ⟨.inr ⟨a, _, rfl, ha, hts'⟩, hkept'⟩
    | cons c' cs =>
      exact ⟨a, _, rfl, ha, hts', hkept', fun x hx => hcalls (List.mem_cons_of_mem _ hx)⟩

/-- Every step within the window keeps the invariant. -/
theorem Inv.step (hw : 1 ≤ w) (hcfg : cfg.maxHistoryMessages = w + 1) (h : Inv w s)
    (hstep : step cfg s e = some s') (hok : WithinWindow cfg s e) : Inv w s' := by
  obtain ⟨history, phase, T⟩ := s
  cases phase with
  | idle => exact h.step_idle hcfg hstep
  | loopHead turn =>
    cases h with
    | window hfirst hlen hno hphase =>
      exact Inv.step_loopHead hcfg hfirst hlen hno hphase hstep hok
  | requesting turn =>
    cases h with
    | window hfirst hlen hno _ => exact Inv.step_requesting hw hcfg hfirst hlen hno hstep
  | executing turn calls =>
    cases h with
    | window hfirst hlen hno hphase =>
    cases e with
    | toolResult content =>
      cases calls with
      | nil => exact absurd hstep (by simp [Conversation.step])
      | cons c cs => exact Inv.step_toolResult hcfg hfirst hlen hno hphase hstep hok
    | throws =>
      cases calls <;> obtain rfl := Option.some.inj hstep <;> exact .window hfirst hlen hno trivial
    | _ => exact absurd hstep (by simp [Conversation.step])

/-- A request outside the window is sent without its turn, of which only the system prompt is
left. -/
theorem not_good_request (hw : 1 ≤ w) (hcfg : cfg.maxHistoryMessages = w + 1) {turn : ℕ}
    {prompt : String} {first : ChatMessage} {rest T : List ChatMessage}
    (hfirst : first.role = .system) (hphase : PhaseInv w (.loopHead turn) T rest)
    (hstep : Conversation.step cfg ⟨first :: rest, .loopHead turn, T⟩ (.request prompt) = some s')
    (hok : ¬T.length < cfg.maxHistoryMessages) : ¬Good s' := by
  simp only [Conversation.step, Option.ite_none_left_eq_some] at hstep
  obtain rfl := Option.some.inj hstep.2
  rw [refreshSystem, if_pos hfirst]
  rcases hphase.2 with ⟨hroom, -⟩ | ⟨hfull, hrest⟩
  · exact (hok (by omega)).elim
  · rintro ⟨-, hturn⟩
    have hle := (hturn _ rfl).length_le
    rw [hrest] at hle
    simp only [List.length_cons, List.length_nil] at hle
    omega

/-- The result of a tool outside the window lands right behind the system prompt. -/
theorem not_good_toolResult (hw : 1 ≤ w) (hcfg : cfg.maxHistoryMessages = w + 1) {turn : ℕ}
    {c : ToolCallRequest} {cs : List ToolCallRequest} {content : String} {first : ChatMessage}
    {rest T : List ChatMessage} (hfirst : first.role = .system) (hlen : rest.length ≤ w)
    (hphase : PhaseInv w (.executing turn (c :: cs)) T rest)
    (hstep : Conversation.step cfg ⟨first :: rest, .executing turn (c :: cs), T⟩
      (.toolResult content) = some s') (hok : ¬T.length < cfg.maxHistoryMessages) : ¬Good s' := by
  obtain rfl := Option.some.inj hstep
  obtain ⟨a, ts, rfl, ha, hts, hkept, hcalls⟩ := hphase
  rcases hkept with ⟨hroom, -⟩ | ⟨hfull, hrest⟩
  · exact (hok (by omega)).elim
  · subst hrest
    rw [append_cons hcfg hfirst hlen, slide,
      if_pos (show ([] : List ChatMessage).length < w from hw)]
    rintro ⟨hno', -⟩
    obtain ⟨hanswer, -⟩ := (noOrphans_cons hfirst _).mp hno'
    obtain ⟨id, hid, -⟩ := hanswer rfl
    exact List.not_mem_nil hid

/-- A step outside the window breaks the promise. -/
theorem Inv.not_good_step (hw : 1 ≤ w) (hcfg : cfg.maxHistoryMessages = w + 1) (h : Inv w s)
    (hstep : Conversation.step cfg s e = some s') (hok : ¬ WithinWindow cfg s e) : ¬ Good s' := by
  obtain ⟨history, phase, T⟩ := s
  cases e with
  | request prompt =>
    cases phase with
    | loopHead turn =>
      cases h with
      | window hfirst _ _ hphase => exact not_good_request hw hcfg hfirst hphase hstep hok
    | _ => exact absurd hstep (by simp [Conversation.step])
  | toolResult content =>
    cases phase with
    | executing turn calls =>
      cases h with
      | window hfirst hlen _ hphase =>
      cases calls with
      | nil => exact absurd hstep (by simp [Conversation.step])
      | cons c cs => exact not_good_toolResult hw hcfg hfirst hlen hphase hstep hok
    | _ => exact absurd hstep (by simp [Conversation.step])
  | _ => exact absurd trivial hok

/-- A conversation keeps its promise at every point exactly if the turns stay within the window:
the reply and the results of a turn are fewer than `max_history` messages whenever another result
is appended or another request is made. -/
theorem good_iff_withinWindow (hmax : 2 ≤ cfg.maxHistoryMessages) (es : List ConversationEvent) :
    Library.Always (Conversation.step cfg) Good {} es ↔
      Library.Meets (Conversation.step cfg) (WithinWindow cfg) {} es := by
  obtain ⟨w, hcfg⟩ : ∃ w, cfg.maxHistoryMessages = w + 1 :=
    ⟨_, (Nat.sub_add_cancel (by omega)).symm⟩
  have hw : 1 ≤ w := by omega
  exact Library.always_iff_meets (fun _ => Inv.good)
    (fun _ _ _ h hstep hok => h.step hw hcfg hstep hok)
    (fun _ _ _ h hstep hok => h.not_good_step hw hcfg hstep hok) .empty

/-- A call of `send_message` in which the model asks for these tools in its first turn. -/
def oneBatch (ids : List String) : List ConversationEvent :=
  [.sendMessage "system" "verify" false, .request "system",
    .reply "" (some (ids.map fun id => { id := id, toolname := "check", arguments := "{}" }))] ++
    ids.map (fun _ => .toolResult "{}")

/-- Four tool results and another request fit the window of six messages. -/
theorem fourCalls_good : Library.Always (Conversation.step { maxHistoryMessages := 6 }) Good {}
    (oneBatch ["a", "b", "c", "d"] ++ [.request "system"]) :=
  (good_iff_withinWindow (by decide) _).mpr (by decide)

/-- The sixth tool result of a turn is an orphan in a window of six messages. -/
theorem sixCalls_not_good : ¬ Library.Always (Conversation.step { maxHistoryMessages := 6 }) Good {}
    (oneBatch ["a", "b", "c", "d", "e", "f"]) := by
  intro h
  obtain ⟨s, hrun, horphan⟩ : ∃ s, Library.runInputs (Conversation.step { maxHistoryMessages := 6 })
      {} (oneBatch ["a", "b", "c", "d", "e", "f"]) = some s ∧ ¬ NoOrphans s.history :=
    ⟨_, rfl, by decide⟩
  exact horphan (h.last hrun).1

end Conversation

end Lace.LLM
