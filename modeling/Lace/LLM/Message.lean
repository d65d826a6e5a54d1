import Mathlib.Data.List.Basic

/-!
# Chat messages

The messages a conversation keeps and sends to the model (`LLMClient.h`).

## Main definitions

* `ChatMessage`, `ToolCallRequest`, `MessageRole`: the types of the source.
* `ChatMessage.issued`: the tool calls an assistant message asks for.
* `ChatMessage.eraseIds`, `ChatMessage.renameIds`: a message up to the ids of its tool calls.
-/

namespace Lace.LLM

/-- `MessageRole`: who says a message. -/
inductive MessageRole
  | system
  | user
  | assistant
  | tool
  deriving DecidableEq, Repr

/-- `ToolCallRequest`: one tool call of an assistant message. -/
structure ToolCallRequest where
  /-- Id the answer refers to. -/
  id : String
  /-- Name of the tool. -/
  toolname : String
  /-- JSON arguments, as text. -/
  arguments : String
  deriving DecidableEq, Repr

/-- `ChatMessage`: one message of a history. -/
structure ChatMessage where
  /-- Who speaks. -/
  role : MessageRole
  /-- Text of the message. -/
  content : String
  /-- Tool calls it asks for. -/
  toolCalls : Option (List ToolCallRequest) := none
  /-- Call a tool message answers. -/
  toolCallId : Option String := none
  /-- Tool that produced a tool message. -/
  toolName : Option String := none
  /-- Never dropped under a token budget; not sent. -/
  pinned : Bool := false
  deriving DecidableEq, Repr

namespace ChatMessage

/-- The tool calls a message asks for; only assistant messages do. -/
def issued (m : ChatMessage) : List ToolCallRequest :=
  if m.role = .assistant then m.toolCalls.getD [] else []

/-- The message with its ids replaced: those of the calls an assistant issues, and the one a tool
message answers. -/
def renameIds (ρ : String → String) (m : ChatMessage) : ChatMessage :=
  match m.role with
  | .assistant =>
    { m with toolCalls := m.toolCalls.map (List.map fun c => { c with id := ρ c.id }) }
  | .tool => { m with toolCallId := m.toolCallId.map ρ }
  | _ => m

/-- The message without its ids. -/
def eraseIds (m : ChatMessage) : ChatMessage :=
  m.renameIds fun _ => ""

@[simp]
lemma role_renameIds (ρ : String → String) (m : ChatMessage) : (m.renameIds ρ).role = m.role := by
  rw [renameIds]
  split <;> rfl

end ChatMessage

end Lace.LLM
