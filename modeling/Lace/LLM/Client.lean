import Mathlib.Algebra.Group.Nat.Defs
import Mathlib.Algebra.GroupWithZero.Nat
import Mathlib.Data.List.Range
import Mathlib.Order.Nat
import Lace.LLM.Json
import Lace.Library.Lines
import Lace.Library.ShellWords

/-!
# Requests over the shell

`LLMClient::chat` writes the request to a file, starts `curl` with a command line for the shell, and
tries again while the answer is no good. A good answer is parsed JSON without an `error` member.

## Main definitions

* `LLMClient.curlCommand`, `execWithStatus`: the command line;
* `LLMClient.arguments`: what `curl` is meant to be started with;
* `chatLoop`, `chat`: the attempts, with the pauses between them;
* `ChatSpec`: what comes out of them.

## Main results

* `LLMClient.tokens_execWithStatus`: the shell reads the command line as it is meant, whatever the
  URL is; an apostrophe in the key arrives as four characters;
* `chat_spec`: the first good answer of ten attempts is returned; without one the error is the last
  output that was delivered, if it is JSON, and otherwise what the last attempt left; a shell that
  cannot be started ends the request.
-/

namespace Lace.LLM

open Library Library.Shell

/-! ### The command line -/

/-- `LLMProvider`: whose service is asked, which decides how the key is sent. -/
inductive LLMProvider
  | openai
  | gemini
  deriving DecidableEq, Repr

/-- What a client reads to start `curl`. -/
structure LLMClient where
  /-- `provider_`. -/
  provider : LLMProvider
  /-- `base_url_`. -/
  baseUrl : String
  /-- `api_key_`. -/
  apiKey : String
  /-- `timeout_seconds_`. -/
  timeoutSeconds : ℤ := 120

/-- `sh_escape_single_quotes`. -/
def shEscapeSingleQuotes (s : String) : String :=
  String.ofList (s.toList.foldl
    (fun out c => if c = '\'' then out ++ ['\'', '\\', '\'', '\''] else out ++ [c]) [])

namespace LLMClient

variable (client : LLMClient)

/-- The header with the key, up to the key. -/
def keyHeader : String :=
  match client.provider with
  | .gemini => "x-goog-api-key: "
  | .openai => "Authorization: Bearer "

/-- `cmd`, for a request in the file `tmpFilename`. -/
def curlCommand (tmpFilename : String) : String :=
  let timeoutOpt := " --connect-timeout 10 --max-time " ++ toString client.timeoutSeconds
  "curl -sS -k" ++ timeoutOpt ++
    " -X POST -H \"Content-Type: application/json\"" ++
    " -H \"" ++ client.keyHeader ++ shEscapeSingleQuotes client.apiKey ++ "\"" ++
    " '" ++ shEscapeSingleQuotes client.baseUrl ++ "'" ++
    " -d @" ++ tmpFilename ++
    " 2>&1"

/-- `exec_with_status`: the command line that `popen` is called with. -/
def execWithStatus (tmpFilename : String) : String := client.curlCommand tmpFilename ++ " 2>&1"

/-- The words that `curl` is started with, for what arrives of the key. -/
def arguments (key tmpFilename : String) : List String :=
  ["curl", "-sS", "-k", "--connect-timeout", "10", "--max-time", toString client.timeoutSeconds,
    "-X", "POST", "-H", "Content-Type: application/json", "-H", client.keyHeader ++ key,
    client.baseUrl, "-d", "@" ++ tmpFilename]

end LLMClient

/-- Escaping works character by character. -/
theorem toList_shEscapeSingleQuotes (s : String) :
    (shEscapeSingleQuotes s).toList = escapeSingle s.toList := by
  have hfold : ∀ (l out : List Char), l.foldl
      (fun out c => if c = '\'' then out ++ ['\'', '\\', '\'', '\''] else out ++ [c]) out =
        out ++ escapeSingle l := by
    intro l
    induction l with
    | nil => simp [escapeSingle]
    | cons c l ih =>
      intro out
      rw [List.foldl_cons, ih, escapeSingle_cons]
      split_ifs <;> simp
  rw [shEscapeSingleQuotes, String.toList_ofList, hfold, List.nil_append]

/-- The escape leaves a key alone exactly if it has no apostrophe. -/
theorem shEscapeSingleQuotes_eq_iff (s : String) :
    shEscapeSingleQuotes s = s ↔ '\'' ∉ s.toList := by
  rw [← String.toList_inj, toList_shEscapeSingleQuotes, escapeSingle_eq_iff]

/-- The text of a number is a word. -/
theorem word_toString (z : ℤ) :
    (toString z).toList ≠ [] ∧ ∀ c ∈ (toString z).toList, isOrdinary c = true := by
  refine ⟨fun hnil => ?_, fun c hc => ?_⟩
  · rw [Int.toString_eq_repr, Int.repr_eq_if] at hnil
    split at hnil <;> simp at hnil
  · rcases isDigit_or_eq_of_mem_toString hc with hc | rfl
    · exact isOrdinary_of_isDigit hc
    · decide +kernel

namespace LLMClient

variable {client : LLMClient} {tmpFilename : String}

/-- The options in front of the limit. -/
theorem steps_options :
    steps .blank ("curl -sS -k".toList ++ " --connect-timeout 10 --max-time ".toList) =
      some (words ["curl", "-sS", "-k", "--connect-timeout", "10", "--max-time"], .blank) := by
  decide +kernel

/-- The limit, up to the second header. -/
theorem steps_limit (client : LLMClient) : steps .blank ((toString client.timeoutSeconds).toList ++
    " -X POST -H \"Content-Type: application/json\"".toList) =
      some (words [toString client.timeoutSeconds, "-X", "POST", "-H"],
        .plain "Content-Type: application/json".toList) := by
  obtain ⟨hne, hordinary⟩ := word_toString client.timeoutSeconds
  have hblank : " -X POST -H \"Content-Type: application/json\"".toList =
      [' '] ++ "-X POST -H \"Content-Type: application/json\"".toList := by decide +kernel
  have htype : steps .blank "-X POST -H \"Content-Type: application/json\"".toList =
      some (words ["-X", "POST", "-H"], .plain "Content-Type: application/json".toList) := by
    decide +kernel
  rw [hblank, ← List.append_assoc, steps_trans (steps_word hne hordinary) htype]
  rfl

/-- The header with the key, up to the URL: the escape is not undone. -/
theorem steps_header (hkey : ∀ c ∈ client.apiKey.toList, isActive c = false) :
    steps (.plain "Content-Type: application/json".toList) (" -H \"".toList ++
      (client.keyHeader.toList ++ (escapeSingle client.apiKey.toList ++
        ("\"".toList ++ " '".toList)))) =
      some (words ["Content-Type: application/json", "-H",
        client.keyHeader ++ shEscapeSingleQuotes client.apiKey], .single []) := by
  have hheader : steps (.plain "Content-Type: application/json".toList)
      (" -H \"".toList ++ client.keyHeader.toList) =
        some (words ["Content-Type: application/json", "-H"], .double client.keyHeader.toList) := by
    rw [keyHeader]
    cases client.provider <;> decide +kernel
  have hquote : ∀ w, steps (.double w) ("\"".toList ++ " '".toList) =
      some ([.word w], .single []) := fun w => rfl
  rw [← List.append_assoc, steps_trans hheader
    (steps_trans (steps_double_escapeSingle hkey client.keyHeader.toList) (hquote _)),
    ← toList_shEscapeSingleQuotes, ← String.toList_append]
  rfl

/-- The URL and the file: whatever the URL is, it is one word. -/
theorem steps_url (client : LLMClient)
    (htmp : ∀ c ∈ tmpFilename.toList, isOrdinary c = true) :
    steps (.single []) (escapeSingle client.baseUrl.toList ++ ("'".toList ++ (" -d @".toList ++
      tmpFilename.toList))) =
      some (words [client.baseUrl, "-d"], .plain ("@" ++ tmpFilename).toList) := by
  have hfile : ∀ w, steps (.single w) ("'".toList ++ " -d @".toList) =
      some ([.word w, .word "-d".toList], .plain "@".toList) := fun w => rfl
  rw [← List.append_assoc "'".toList, steps_trans (steps_escapeSingle client.baseUrl.toList [])
    (steps_trans (hfile _) (steps_ordinary htmp "@".toList)), String.toList_append]
  rfl

/-- The redirections at the end. -/
theorem tokensFrom_redirections (w : String) :
    tokensFrom (.plain w.toList) (" 2>&1".toList ++ " 2>&1".toList) =
      some (words [w] ++ [.dup '2' '1', .dup '2' '1']) := rfl

/-- The command line, part by part. -/
theorem toList_execWithStatus (client : LLMClient) (tmpFilename : String) :
    (client.execWithStatus tmpFilename).toList =
      (("curl -sS -k".toList ++ " --connect-timeout 10 --max-time ".toList ++
        ((toString client.timeoutSeconds).toList ++
          " -X POST -H \"Content-Type: application/json\"".toList)) ++
        (" -H \"".toList ++ (client.keyHeader.toList ++ (escapeSingle client.apiKey.toList ++
          ("\"".toList ++ " '".toList)))) ++
        (escapeSingle client.baseUrl.toList ++ ("'".toList ++ (" -d @".toList ++
          tmpFilename.toList)))) ++ (" 2>&1".toList ++ " 2>&1".toList) := by
  rw [← toList_shEscapeSingleQuotes, ← toList_shEscapeSingleQuotes]
  -- The texts play no role, only their order.
  have hparts : ∀ a b z t h n k q u v f d m r : String,
      (a ++ (b ++ z) ++ t ++ h ++ n ++ k ++ q ++ u ++ v ++ f ++ d ++ m ++ r ++ r).toList =
        ((a.toList ++ b.toList ++ (z.toList ++ t.toList)) ++
          (h.toList ++ (n.toList ++ (k.toList ++ (q.toList ++ u.toList)))) ++
          (v.toList ++ (f.toList ++ (d.toList ++ m.toList)))) ++ (r.toList ++ r.toList) := by
    intros
    simp only [String.toList_append, List.append_assoc]
  exact hparts _ _ _ _ _ _ _ _ _ _ _ _ _ _

/-- A client with a URL that a shell would take apart, and a key with an apostrophe. -/
def quotedClient : LLMClient where
  provider := .openai
  baseUrl := "https://host/it's $(id)?a=1&b=2"
  apiKey := "sk-o'neil"

end LLMClient

/-! ### The attempts -/

/-- What `exec_with_status` returns: the output of `curl` with its exit code. It throws if `popen`
fails. -/
structure Execution where
  /-- The output. -/
  out : String
  /-- The exit code; it is `-1` if there is none. -/
  exitCode : ℤ
  deriving DecidableEq

/-- `max_retries`. -/
def maxRetries : ℕ := 10

/-- `sleep_ms`, behind so many attempts. -/
def sleepMs (attempt : ℕ) : ℕ := min (200 * attempt * attempt) 10000

/-- The variables of the loop over the attempts. -/
structure Attempts where
  /-- `attempt`. -/
  attempt : ℕ := 0
  /-- `response_str`. -/
  responseStr : String := ""
  /-- `exit_code`. -/
  exitCode : ℤ := -1
  /-- `response_json`; it is `none` if it is discarded. -/
  responseJson : Option Json := some .null
  /-- The pauses so far, in milliseconds. The program does not keep them. -/
  sleeps : List ℕ := []
  /-- `exec_with_status` has thrown, and the exception leaves the loop. -/
  popenFailed : Bool := false

/-- Why a request failed: the message of the exception. -/
inductive ChatError
  /-- `API request failed after retries (error JSON)`, with the text of the value. -/
  | errorJson (j : Json)
  /-- `API request failed after retries (curl exit=..)`, with the output. -/
  | curlExit (exitCode : ℤ) (out : String)
  /-- `API request failed after retries: empty response from curl.` -/
  | empty
  /-- `API request failed after retries: could not parse a valid JSON response.` -/
  | unparsable
  /-- `popen() failed!`, of `exec_with_status`. -/
  | popenFailed

section Chat

-- `json::parse` without exceptions: `none` is a discarded value.
variable (parse : String → Option Json)

/-- The output of an attempt was delivered: it is read. -/
def Execution.delivered (e : Execution) : Bool := e.exitCode = 0 && !e.out.isEmpty

/-- `ok_transport` behind an attempt: the output is parsed, and is no error. -/
def Execution.ok (e : Execution) : Bool :=
  e.delivered &&
    match parse e.out with
    | none => false
    | some j => !j.contains "error"

namespace Attempts

variable (st : Attempts)

/-- The attempt as far as `ok_transport`: what is not delivered is not parsed. -/
def read (e : Execution) : Attempts :=
  { st with
    responseStr := e.out
    exitCode := e.exitCode
    responseJson := if e.delivered then parse e.out else st.responseJson }

/-- What follows a failed attempt. -/
def retry : Attempts :=
  let attempt := st.attempt + 1
  { st with
    attempt := attempt
    sleeps := if attempt < maxRetries then st.sleeps ++ [sleepMs attempt] else st.sleeps }

end Attempts

-- What the attempts bring; `none` if `exec_with_status` throws.
variable (executions : ℕ → Option Execution)

/-- The loop over the attempts, with so many of them left. -/
def chatLoop : ℕ → Attempts → Attempts
  | 0, st => st
  | remaining + 1, st =>
    match executions st.attempt with
    | none => { st with popenFailed := true }
    | some e => if e.ok parse then st.read parse e else chatLoop remaining (st.read parse e).retry

/-- What the loop leaves. -/
def attempts : Attempts := chatLoop parse executions maxRetries {}

/-- The error of a loop without a good answer. -/
def Attempts.error (st : Attempts) : ChatError :=
  match st.responseJson with
  | some j =>
    -- A null value has no members either.
    if j.contains "error" then .errorJson j
    else if st.exitCode ≠ 0 then .curlExit st.exitCode st.responseStr
    else if st.responseStr.isEmpty then .empty
    else .unparsable
  | none =>
    if st.exitCode ≠ 0 then .curlExit st.exitCode st.responseStr
    else if st.responseStr.isEmpty then .empty
    else .unparsable

/-- `chat` up to the parsed response. -/
def chat : Except ChatError Json :=
  let st := attempts parse executions
  if st.popenFailed then .error .popenFailed
  else if maxRetries ≤ st.attempt then .error st.error
  else
    match st.responseJson with
    | some j => .ok j
    | none => .error .unparsable

/-- A good answer: it is delivered, and it is JSON without an `error` member. -/
structure Good (e : Execution) (j : Json) : Prop where
  /-- It is delivered. -/
  delivered : e.delivered = true
  /-- It is JSON. -/
  parsed : parse e.out = some j
  /-- It has no `error` member. -/
  noError : j.contains "error" = false

/-- The first `k` attempts bring these outcomes, and none of them is good. -/
structure AllFail (k : ℕ) (made : ℕ → Execution) : Prop where
  /-- They are the outcomes. -/
  outcome : ∀ i < k, executions i = some (made i)
  /-- None is good. -/
  bad : ∀ i < k, ∀ j, ¬Good parse (made i) j

/-- The last one of the first `k` outcomes whose output was delivered. -/
structure LastDelivered (made : ℕ → Execution) (k i : ℕ) : Prop where
  /-- It is one of them. -/
  lt : i < k
  /-- Its output was delivered. -/
  delivered : (made i).delivered = true
  /-- No later one was. -/
  last : ∀ i', i < i' → i' < k → (made i').delivered = false

/-- The pauses before attempt `n`. -/
def pausesBefore (n : ℕ) : List ℕ := (List.range n).map fun i => sleepMs (i + 1)

/-- What becomes of a request, whatever the attempts bring. -/
structure ChatSpec : Prop where
  /-- The first good answer is returned, after the pauses between the attempts. -/
  success : ∀ n < maxRetries, ∀ made, AllFail parse executions n made →
    ∀ e j, executions n = some e → Good parse e j → chat parse executions = .ok j ∧
      (attempts parse executions).sleeps = pausesBefore n
  /-- If the shell cannot be started, its exception leaves at once: nothing more is tried. -/
  popenFailed : ∀ n < maxRetries, ∀ made, AllFail parse executions n made → executions n = none →
    chat parse executions = .error .popenFailed ∧
      (attempts parse executions).sleeps = pausesBefore n
  /-- Nothing else is returned. -/
  sound : ∀ j, chat parse executions = .ok j → ∃ n < maxRetries, ∃ e made,
    executions n = some e ∧ Good parse e j ∧ AllFail parse executions n made
  /-- Without a good answer the error is the value of the last output that was delivered, if it is
  JSON, also if later attempts were not delivered. -/
  errorJson : ∀ made, AllFail parse executions maxRetries made →
    ∀ i, LastDelivered made maxRetries i → ∀ j, parse (made i).out = some j →
      chat parse executions = .error (.errorJson j)
  /-- If that output is no JSON, or nothing was delivered, the error is that of the last attempt:
  its exit code and output, or only that it is empty or no JSON if the exit code is zero. -/
  otherError : ∀ made, AllFail parse executions maxRetries made →
    (∀ i, LastDelivered made maxRetries i → parse (made i).out = none) →
      chat parse executions = .error (if (made 9).exitCode ≠ 0 then
          .curlExit (made 9).exitCode (made 9).out
        else if (made 9).out.isEmpty then .empty else .unparsable)
  /-- The pauses add up to less than a minute. -/
  pauses : (attempts parse executions).sleeps.sum ≤ 48000

variable {parse} {executions} {made : ℕ → Execution} {st : Attempts} {k n i : ℕ} {e : Execution}
  {j : Json}

/-- An attempt ends the loop when its answer is good. -/
theorem ok_iff : e.ok parse = true ↔ ∃ j, Good parse e j := by
  rw [Execution.ok, Bool.and_eq_true]
  constructor
  · rintro ⟨hdelivered, hparsed⟩
    split at hparsed
    next => cases hparsed
    next j hj => exact ⟨j, hdelivered, hj, by simpa using hparsed⟩
  · rintro ⟨j, hdelivered, hj, herror⟩
    exact ⟨hdelivered, by simp [hj, herror]⟩

/-- An execution without a good answer does not end the loop. -/
theorem ok_eq_false (h : ∀ j, ¬Good parse e j) : e.ok parse = false := by
  rw [← Bool.not_eq_true, ok_iff]
  exact fun ⟨j, hj⟩ => h j hj

/-! ### Failed attempts -/

variable (parse made) in
/-- The variables of the loop behind so many failed attempts. -/
def rounds : ℕ → Attempts
  | 0 => {}
  | k + 1 => ((rounds k).read parse (made k)).retry

theorem attempt_rounds : (rounds parse made k).attempt = k := by
  induction k with
  | zero => rfl
  | succ k ih => simp [rounds, Attempts.retry, Attempts.read, ih]

/-- A failed attempt does not leave the loop. -/
theorem popenFailed_rounds : (rounds parse made k).popenFailed = false := by
  induction k with
  | zero => rfl
  | succ k ih => exact ih

/-- A failed attempt is followed by a pause, unless it was the last. -/
theorem sleeps_succ (parse : String → Option Json) (made : ℕ → Execution) (k : ℕ) :
    (rounds parse made (k + 1)).sleeps =
      if k + 1 < maxRetries then (rounds parse made k).sleeps ++ [sleepMs (k + 1)]
      else (rounds parse made k).sleeps := by
  have hround : (rounds parse made (k + 1)).sleeps =
      if (rounds parse made k).attempt + 1 < maxRetries then
        (rounds parse made k).sleeps ++ [sleepMs ((rounds parse made k).attempt + 1)]
      else (rounds parse made k).sleeps := rfl
  rw [hround, attempt_rounds]

/-- The JSON held after an attempt is that attempt's, if it delivered anything. -/
theorem responseJson_succ (parse : String → Option Json) (made : ℕ → Execution) (k : ℕ) :
    (rounds parse made (k + 1)).responseJson =
      if (made k).delivered then parse (made k).out else (rounds parse made k).responseJson := rfl

/-- There is a pause behind each failed attempt but the last one. -/
theorem sleeps_rounds (hk : k < maxRetries) : (rounds parse made k).sleeps = pausesBefore k := by
  induction k with
  | zero => rfl
  | succ k ih =>
    rw [sleeps_succ, if_pos hk, ih (Nat.lt_of_succ_lt hk), pausesBefore, pausesBefore,
      List.range_succ, List.map_append]
    rfl

/-- Ten failed attempts are separated by nine pauses. -/
theorem sleeps_rounds_maxRetries : (rounds parse made maxRetries).sleeps = pausesBefore 9 := by
  rw [show maxRetries = 9 + 1 from rfl, sleeps_succ, if_neg (by decide), sleeps_rounds (by decide)]

/-- The value that is kept is that of the last output that was delivered. -/
theorem responseJson_rounds (h : LastDelivered made k i) :
    (rounds parse made k).responseJson = parse (made i).out := by
  induction k with
  | zero => exact absurd h.lt (Nat.not_lt_zero i)
  | succ k ih =>
    rw [responseJson_succ]
    rcases Nat.lt_succ_iff_lt_or_eq.mp h.lt with hlt | rfl
    · rw [h.last k hlt (Nat.lt_succ_self k)]
      exact ih ⟨hlt, h.delivered, fun i' hi' hk => h.last i' hi' (Nat.lt_succ_of_lt hk)⟩
    · rw [h.delivered, if_pos rfl]

/-- While nothing was delivered the JSON is still the initial null. -/
theorem responseJson_rounds_of_none (h : ∀ i < k, (made i).delivered = false) :
    (rounds parse made k).responseJson = some .null := by
  induction k with
  | zero => rfl
  | succ k ih =>
    rw [responseJson_succ, h k (Nat.lt_succ_self k)]
    exact ih fun i hi => h i (Nat.lt_succ_of_lt hi)

/-- Some outcome is the last one that was delivered, if any was. -/
theorem exists_lastDelivered (made : ℕ → Execution) (k : ℕ) :
    (∃ i, LastDelivered made k i) ∨ ∀ i < k, (made i).delivered = false := by
  induction k with
  | zero => exact Or.inr fun i hi => absurd hi (Nat.not_lt_zero i)
  | succ k ih =>
    cases hk : (made k).delivered with
    | true =>
      exact Or.inl ⟨k, Nat.lt_succ_self k, hk, fun i' hlt hle =>
        absurd (Nat.lt_succ_iff.mp hle) (Nat.not_le.mpr hlt)⟩
    | false =>
      have hend : ∀ i' < k + 1, i' < k ∨ i' = k := fun i' hi' => Nat.lt_succ_iff_lt_or_eq.mp hi'
      rcases ih with ⟨i, hi⟩ | hnone
      · refine Or.inl ⟨i, Nat.lt_succ_of_lt hi.lt, hi.delivered, fun i' hlt hle => ?_⟩
        rcases hend i' hle with hlt' | rfl
        · exact hi.last i' hlt hlt'
        · exact hk
      · refine Or.inr fun i' hi' => ?_
        rcases hend i' hi' with hlt' | rfl
        · exact hnone i' hlt'
        · exact hk

/-- Fewer attempts fail as well. -/
theorem AllFail.mono (h : AllFail parse executions n made) (hk : k ≤ n) :
    AllFail parse executions k made where
  outcome i hi := h.outcome i (hi.trans_le hk)
  bad i hi := h.bad i (hi.trans_le hk)

/-- The loop passes over failed attempts. -/
theorem chatLoop_rounds (hk : k ≤ n) (hfail : AllFail parse executions k made) :
    chatLoop parse executions n {} =
      chatLoop parse executions (n - k) (rounds parse made k) := by
  induction k with
  | zero => rfl
  | succ k ih =>
    rw [ih (Nat.le_of_succ_le hk) (hfail.mono (Nat.le_succ k)),
      show n - k = n - (k + 1) + 1 by omega, chatLoop, attempt_rounds,
      hfail.outcome k (Nat.lt_succ_self k)]
    dsimp only
    rw [if_neg (by rw [ok_eq_false (hfail.bad k (Nat.lt_succ_self k))]; exact Bool.false_ne_true)]
    rfl

/-- The loop ends behind ten failed attempts. -/
theorem attempts_of_failed (hfail : AllFail parse executions maxRetries made) :
    attempts parse executions = rounds parse made maxRetries := by
  rw [attempts, chatLoop_rounds le_rfl hfail, Nat.sub_self, chatLoop]

/-- The first good execution ends the loop. -/
theorem attempts_of_good (hn : n < maxRetries) (hfail : AllFail parse executions n made)
    (he : executions n = some e) (hgood : Good parse e j) :
    attempts parse executions = (rounds parse made n).read parse e := by
  rw [attempts, chatLoop_rounds hn.le hfail,
    show maxRetries - n = maxRetries - (n + 1) + 1 by omega, chatLoop, attempt_rounds, he]
  dsimp only
  rw [if_pos (ok_iff.mpr ⟨j, hgood⟩)]

/-- An attempt that cannot start its command ends the loop. -/
theorem attempts_of_popenFailed (hn : n < maxRetries) (hfail : AllFail parse executions n made)
    (hnone : executions n = none) :
    attempts parse executions = { rounds parse made n with popenFailed := true } := by
  rw [attempts, chatLoop_rounds hn.le hfail,
    show maxRetries - n = maxRetries - (n + 1) + 1 by omega, chatLoop]
  rw [show executions (rounds parse made n).attempt = none by rw [attempt_rounds, hnone]]

/-! ### What comes out -/

/-- The first good answer is what the call returns. -/
theorem chat_of_good (hn : n < maxRetries) (hfail : AllFail parse executions n made)
    (he : executions n = some e) (hgood : Good parse e j) : chat parse executions = .ok j := by
  have hattempt : ((rounds parse made n).read parse e).attempt = n := attempt_rounds
  have hstays : ((rounds parse made n).read parse e).popenFailed = false := popenFailed_rounds
  have hjson : ((rounds parse made n).read parse e).responseJson = some j := by
    simp [Attempts.read, hgood.delivered, hgood.parsed]
  rw [chat, attempts_of_good hn hfail he hgood]
  rw [hattempt, hstays, if_neg Bool.false_ne_true, if_neg (Nat.not_le.mpr hn), hjson]

/-- After ten bad executions the call throws the error of the last state. -/
theorem chat_of_failed (hfail : AllFail parse executions maxRetries made) :
    chat parse executions = .error (rounds parse made maxRetries).error := by
  rw [chat, attempts_of_failed hfail]
  rw [popenFailed_rounds, if_neg Bool.false_ne_true, attempt_rounds, if_pos le_rfl]

/-- A command that cannot be started makes the call throw at once. -/
theorem chat_of_popenFailed (hn : n < maxRetries) (hfail : AllFail parse executions n made)
    (hnone : executions n = none) : chat parse executions = .error .popenFailed := by
  rw [chat, attempts_of_popenFailed hn hfail hnone]
  rfl

/-- Either so many attempts fail, or behind failed ones there is one that is good or cannot
start. -/
theorem allFail_or_first (parse : String → Option Json) (executions : ℕ → Option Execution) (k : ℕ) :
    ∃ made, AllFail parse executions k made ∨ ∃ n < k, AllFail parse executions n made ∧
      (executions n = none ∨ ∃ e j, executions n = some e ∧ Good parse e j) := by
  refine ⟨fun i => (executions i).getD ⟨"", -1⟩, ?_⟩
  induction k with
  | zero => exact Or.inl ⟨fun i hi => absurd hi (Nat.not_lt_zero i),
      fun i hi => absurd hi (Nat.not_lt_zero i)⟩
  | succ k ih =>
    rcases ih with hfail | ⟨n, hn, hfirst⟩
    · cases hk : executions k with
      | none => exact Or.inr ⟨k, Nat.lt_succ_self k, hfail, Or.inl hk⟩
      | some e =>
        by_cases hgood : ∃ j, Good parse e j
        · obtain ⟨j, hj⟩ := hgood
          exact Or.inr ⟨k, Nat.lt_succ_self k, hfail, Or.inr ⟨e, j, hk, hj⟩⟩
        · -- The attempt is made and fails as well.
          refine Or.inl ⟨fun i hi => ?_, fun i hi => ?_⟩
          · rcases Nat.lt_succ_iff_lt_or_eq.mp hi with hlt | rfl
            · exact hfail.outcome i hlt
            · rw [hk, Option.getD_some]
          · rcases Nat.lt_succ_iff_lt_or_eq.mp hi with hlt | rfl
            · exact hfail.bad i hlt
            · rw [hk, Option.getD_some]
              exact not_exists.mp hgood
    · exact Or.inr ⟨n, Nat.lt_succ_of_lt hn, hfirst⟩

/-- The pauses before any of the ten attempts add up to 48 seconds at most. -/
theorem sum_pausesBefore_le : ∀ n < 10, (pausesBefore n).sum ≤ 48000 := by decide

variable (parse executions) in
/-- What becomes of a request. -/
theorem chat_spec : ChatSpec parse executions where
  success n hn made hfail e j he hgood := by
    refine ⟨chat_of_good hn hfail he hgood, ?_⟩
    rw [attempts_of_good hn hfail he hgood]
    exact sleeps_rounds hn
  popenFailed n hn made hfail hnone := by
    refine ⟨chat_of_popenFailed hn hfail hnone, ?_⟩
    rw [attempts_of_popenFailed hn hfail hnone]
    exact sleeps_rounds hn
  sound j hj := by
    obtain ⟨made, hfail | ⟨n, hn, hfail, hnone | ⟨e, j', he, hgood⟩⟩⟩ :=
      allFail_or_first parse executions maxRetries
    · rw [chat_of_failed hfail] at hj
      cases hj
    · rw [chat_of_popenFailed hn hfail hnone] at hj
      cases hj
    · rw [chat_of_good hn hfail he hgood] at hj
      obtain rfl : j' = j := Except.ok.inj hj
      exact ⟨n, hn, e, made, he, hgood, hfail⟩
  errorJson made hfail i hlast j hj := by
    -- It is delivered and parsed, but no good.
    have herror : j.contains "error" = true := by
      by_contra herror
      exact hfail.bad i hlast.lt j ⟨hlast.delivered, hj, by simpa using herror⟩
    rw [chat_of_failed hfail, Attempts.error, responseJson_rounds hlast, hj]
    dsimp only
    rw [if_pos herror]
  otherError made hfail hlast := by
    have hcode : (rounds parse made maxRetries).exitCode = (made 9).exitCode := rfl
    have hout : (rounds parse made maxRetries).responseStr = (made 9).out := rfl
    rw [chat_of_failed hfail, Attempts.error, hcode, hout]
    rcases exists_lastDelivered made maxRetries with ⟨i, hi⟩ | hnot
    · rw [responseJson_rounds hi, hlast i hi]
    · rw [responseJson_rounds_of_none hnot]
      rfl
  pauses := by
    obtain ⟨made, hfail | ⟨n, hn, hfail, hnone | ⟨e, j, he, hgood⟩⟩⟩ :=
      allFail_or_first parse executions maxRetries
    · rw [attempts_of_failed hfail, sleeps_rounds_maxRetries]
      exact sum_pausesBefore_le 9 (by decide)
    · rw [attempts_of_popenFailed hn hfail hnone]
      exact (congrArg List.sum (sleeps_rounds hn)).trans_le (sum_pausesBefore_le n hn)
    · rw [attempts_of_good hn hfail he hgood]
      exact (congrArg List.sum (sleeps_rounds hn)).trans_le (sum_pausesBefore_le n hn)

end Chat

end Lace.LLM
