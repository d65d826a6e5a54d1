import Mathlib.Data.List.Basic

/-!
# The words of a shell command

How a POSIX shell cuts a simple command into words: blanks end a word, single quotes keep what is
between them, double quotes keep it as well but for a few characters, and a backslash keeps the
next character. A digit in front of `>&` and another one is a redirection. Where the shell would
expand something, start another command or open a file there is no reading.

## Main definitions

* `State`, `step`: the reader, one character after the other;
* `steps`, `tokens`: what it reads from a part of a command, and from a whole one;
* `escapeSingle`: a text for the inside of single quotes.

## Main results

* `steps_append`, `tokens_append`: a command is read part by part;
* `steps_word`, `tokensFrom_word`, `steps_double`: what is read as it stands;
* `steps_escapeSingle`: between single quotes every text is one piece of a word;
* `escapeSingle_eq_iff`: the texts that are their own escape.
-/

namespace Lace.Library.Shell

/-- A token of a simple command. -/
inductive Token
  /-- A word. -/
  | word (w : List Char)
  /-- `n>&m`. -/
  | dup (n m : Char)
  deriving DecidableEq, Repr

/-- Where the reader stands. The words are what has been read of them so far. -/
inductive State
  /-- Between two tokens. -/
  | blank
  /-- Behind a digit that starts a word. -/
  | number (n : Char)
  /-- In a word, outside of quotes. -/
  | plain (w : List Char)
  /-- Behind a backslash outside of quotes. -/
  | escape (w : List Char)
  /-- In single quotes. -/
  | single (w : List Char)
  /-- In double quotes. -/
  | double (w : List Char)
  /-- Behind a backslash in double quotes. -/
  | doubleEscape (w : List Char)
  /-- Behind `n>`. -/
  | redirect (n : Char)
  /-- Behind `n>&`. -/
  | duplicate (n : Char)
  /-- Behind `n>&m`. -/
  | duplicated (n m : Char)
  deriving DecidableEq, Repr

/-- A blank. -/
def isBlank (c : Char) : Bool := c = ' ' || c = '\t'

/-- A character without a meaning of its own outside of quotes. -/
def isOrdinary (c : Char) : Bool := !(c ∈ " \t\n'\"\\|&;<>()$`*?[]#~\x7b\x7d!".toList)

/-- A character with a meaning of its own in double quotes. -/
def isActive (c : Char) : Bool := c = '"' || c = '$' || c = '`' || c = '\\'

/-- One character of a word, outside of quotes. -/
def stepWord (w : List Char) (c : Char) : Option (List Token × State) :=
  if isBlank c then some ([.word w], .blank)
  else if c = '\'' then some ([], .single w)
  else if c = '"' then some ([], .double w)
  else if c = '\\' then some ([], .escape w)
  else if isOrdinary c then some ([], .plain (w ++ [c]))
  else none

/-- One character: the tokens that it ends, and where the reader stands then. -/
def step : State → Char → Option (List Token × State)
  | .blank, c =>
    if isBlank c then some ([], .blank)
    else if c.isDigit then some ([], .number c)
    else stepWord [] c
  | .number n, c => if c = '>' then some ([], .redirect n) else stepWord [n] c
  | .plain w, c => stepWord w c
  | .escape w, c => if c = '\n' then none else some ([], .plain (w ++ [c]))
  | .single w, c => if c = '\'' then some ([], .plain w) else some ([], .single (w ++ [c]))
  | .double w, c =>
    if c = '"' then some ([], .plain w)
    else if c = '\\' then some ([], .doubleEscape w)
    else if isActive c then none
    else some ([], .double (w ++ [c]))
  | .doubleEscape w, c =>
    if c = '\n' then some ([], .double w)
    else if isActive c then some ([], .double (w ++ [c]))
    -- In front of any other character the backslash stands for itself.
    else some ([], .double (w ++ ['\\', c]))
  | .redirect n, c => if c = '&' then some ([], .duplicate n) else none
  | .duplicate n, c => if c.isDigit then some ([], .duplicated n c) else none
  | .duplicated n m, c => if isBlank c then some ([.dup n m], .blank) else none

/-- The tokens that the end of the command ends. -/
def finish : State → Option (List Token)
  | .blank => some []
  | .number n => some [.word [n]]
  | .plain w => some [.word w]
  | .duplicated n m => some [.dup n m]
  | _ => none

/-- The reader on a part of a command. -/
def steps : State → List Char → Option (List Token × State)
  | q, [] => some ([], q)
  | q, c :: s =>
    (step q c).bind fun r => (steps r.2 s).map fun r' => (r.1 ++ r'.1, r'.2)

/-- The tokens of a command, from a state of the reader. -/
def tokensFrom (q : State) (s : List Char) : Option (List Token) :=
  (steps q s).bind fun r => (finish r.2).map fun ts => r.1 ++ ts

/-- The tokens of a command. -/
def tokens (s : List Char) : Option (List Token) := tokensFrom .blank s

/-- Words as tokens. -/
def words (l : List String) : List Token := l.map fun w => .word w.toList

/-- A text for the inside of single quotes: a quote ends them, stands for itself behind a backslash,
and opens them again. -/
def escapeSingle (s : List Char) : List Char :=
  s.flatMap fun c => if c = '\'' then ['\'', '\\', '\'', '\''] else [c]

variable {q q' : State} {s t w : List Char} {ts : List Token} {c : Char}

/-! ### Part by part -/

/-- Reading two texts is reading the first and then, from its state, the second. -/
theorem steps_append (h : steps q s = some (ts, q')) (t : List Char) :
    steps q (s ++ t) = (steps q' t).map fun r => (ts ++ r.1, r.2) := by
  induction s generalizing q ts with
  | nil =>
    cases h
    simp
  | cons c s ih =>
    rw [steps, Option.bind_eq_some_iff] at h
    obtain ⟨r, hr, h⟩ := h
    obtain ⟨r', hr', heq⟩ := Option.map_eq_some_iff.mp h
    cases heq
    rw [List.cons_append, steps, hr, Option.bind_some, ih hr', Option.map_map]
    congr 1
    funext x
    simp

/-- The tokens of two texts come one after the other. -/
theorem steps_trans (h : steps q s = some (ts, q')) {ts' : List Token} {q'' : State}
    (h' : steps q' t = some (ts', q'')) : steps q (s ++ t) = some (ts ++ ts', q'') := by
  rw [steps_append h, h']
  rfl

/-- The tokens of a text begin with those of its first part. -/
theorem tokensFrom_append (h : steps q s = some (ts, q')) (t : List Char) :
    tokensFrom q (s ++ t) = (tokensFrom q' t).map (ts ++ ·) := by
  rw [tokensFrom, steps_append h, tokensFrom]
  cases steps q' t with
  | none => rfl
  | some r =>
    cases hfinish : finish r.2 with
    | none => simp [hfinish]
    | some us => simp [hfinish]

/-- A character that completes no token only changes the state. -/
theorem steps_cons_of_step (h : step q c = some ([], q')) (s : List Char) :
    steps q (c :: s) = steps q' s := by
  rw [steps, h, Option.bind_some]
  cases steps q' s with
  | none => rfl
  | some r => rfl

theorem words_append (l l' : List String) : words (l ++ l') = words l ++ words l' :=
  List.map_append

/-! ### What is read as it stands -/

/-- An ordinary character is added to the word. -/
theorem stepWord_ordinary (h : isOrdinary c = true) :
    stepWord w c = some ([], .plain (w ++ [c])) := by
  have hmem : c ∉ " \t\n'\"\\|&;<>()$`*?[]#~\x7b\x7d!".toList := by simpa [isOrdinary] using h
  have hne : ∀ d ∈ [' ', '\t', '\'', '"', '\\'], c ≠ d := by
    rintro d hd rfl
    simp at hd hmem
    tauto
  simp [stepWord, isBlank, h, hne]

/-- A class of characters is ordinary if none of the special ones is in it. -/
theorem isOrdinary_of {p : Char → Bool}
    (hp : [' ', '\t', '\n', '\'', '"', '\\', '|', '&', ';', '<', '>', '(', ')', '$', '`', '*', '?',
      '[', ']', '#', '~', '\x7b', '\x7d', '!'].any p = false) (h : p c = true) :
    isOrdinary c = true := by
  rw [isOrdinary, Bool.not_eq_true', decide_eq_false_iff_not, String.toList_ofList]
  exact fun hmem => List.any_eq_false.mp hp c hmem h

theorem isOrdinary_of_isDigit (h : c.isDigit = true) : isOrdinary c = true :=
  isOrdinary_of (by decide) h

/-- Ordinary characters go on with a word. -/
theorem steps_ordinary (h : ∀ c ∈ s, isOrdinary c = true) (w : List Char) :
    steps (.plain w) s = some ([], .plain (w ++ s)) := by
  induction s generalizing w with
  | nil => simp [steps]
  | cons c s ih =>
    have hstep : step (.plain w) c = some ([], .plain (w ++ [c])) :=
      stepWord_ordinary (h c List.mem_cons_self)
    rw [steps_cons_of_step hstep, ih fun d hd => h d (List.mem_cons_of_mem c hd),
      List.append_assoc, List.singleton_append]

/-- Ordinary characters between two tokens start a word. Behind a first digit only `>` would be no
part of it. -/
theorem exists_steps_blank (hne : s ≠ []) (h : ∀ c ∈ s, isOrdinary c = true) :
    ∃ q, steps .blank s = some ([], q) ∧
      (q = .plain s ∨ ∃ n, n.isDigit = true ∧ s = [n] ∧ q = .number n) := by
  obtain ⟨c, s, rfl⟩ := List.exists_cons_of_ne_nil hne
  have hc := h c List.mem_cons_self
  have hs : ∀ d ∈ s, isOrdinary d = true := fun d hd => h d (List.mem_cons_of_mem c hd)
  have hblank : isBlank c = false := by
    by_contra hblank
    rw [Bool.not_eq_false, isBlank, Bool.or_eq_true, decide_eq_true_eq, decide_eq_true_eq] at hblank
    rcases hblank with rfl | rfl <;> simp [isOrdinary] at hc
  cases hdigit : c.isDigit with
  | false =>
    have hstep : step .blank c = some ([], .plain [c]) := by
      simpa [step, hblank, hdigit] using stepWord_ordinary (w := []) hc
    exact ⟨.plain (c :: s), by rw [steps_cons_of_step hstep, steps_ordinary hs]; rfl, Or.inl rfl⟩
  | true =>
    -- A digit may begin the number of a redirection.
    have hstep : step .blank c = some ([], .number c) := by simp [step, hblank, hdigit]
    cases s with
    | nil => exact ⟨.number c, by rw [steps_cons_of_step hstep]; rfl, Or.inr ⟨c, hdigit, rfl, rfl⟩⟩
    | cons d s =>
      have hd := hs d List.mem_cons_self
      have hgt : d ≠ '>' := by
        rintro rfl
        simp [isOrdinary] at hd
      -- It does not, for the next character is no redirection.
      have hnumber : step (.number c) d = some ([], .plain ([c] ++ [d])) := by
        simpa [step, hgt] using stepWord_ordinary (w := [c]) hd
      refine ⟨.plain (c :: d :: s), ?_, Or.inl rfl⟩
      rw [steps_cons_of_step hstep, steps_cons_of_step hnumber,
        steps_ordinary fun e he => hs e (List.mem_cons_of_mem d he)]
      rfl

/-- Ordinary characters up to a blank are a word. -/
theorem steps_word (hne : s ≠ []) (h : ∀ c ∈ s, isOrdinary c = true) :
    steps .blank (s ++ [' ']) = some ([.word s], .blank) := by
  obtain ⟨q, hq, rfl | ⟨n, -, rfl, rfl⟩⟩ := exists_steps_blank hne h
  · exact steps_trans hq rfl
  · exact steps_trans hq rfl

/-- Ordinary characters up to the end are a word. -/
theorem tokensFrom_word (hne : s ≠ []) (h : ∀ c ∈ s, isOrdinary c = true) :
    tokensFrom .blank s = some [.word s] := by
  obtain ⟨q, hq, rfl | ⟨n, -, rfl, rfl⟩⟩ := exists_steps_blank hne h
  · rw [tokensFrom, hq]
    rfl
  · rw [tokensFrom, hq]
    rfl

/-- Pieces that each end a word and start another one. -/
theorem tokensFrom_flatMap {β : Type*} {piece text : β → List Char} {ts : List Token} {l : List β}
    (h : ∀ b ∈ l, ∀ w, steps (.plain w) (piece b) = some (.word w :: ts, .plain (text b)))
    (w : List Char) : tokensFrom (.plain w) (l.flatMap piece) =
      some (.word w :: l.flatMap fun b => ts ++ [.word (text b)]) := by
  induction l generalizing w with
  | nil => rfl
  | cons b l ih =>
    rw [List.flatMap_cons, tokensFrom_append (h b List.mem_cons_self w),
      ih (fun b' hb' => h b' (List.mem_cons_of_mem b hb'))]
    simp

/-- In double quotes all characters but the active ones are kept. -/
theorem steps_double (h : ∀ c ∈ s, isActive c = false) (w : List Char) :
    steps (.double w) s = some ([], .double (w ++ s)) := by
  induction s generalizing w with
  | nil => simp [steps]
  | cons c s ih =>
    have hactive := h c List.mem_cons_self
    have hstep : step (.double w) c = some ([], .double (w ++ [c])) := by
      simp only [isActive, Bool.or_eq_false_iff, decide_eq_false_iff_not] at hactive
      simp [step, isActive, hactive]
    rw [steps_cons_of_step hstep, ih fun d hd => h d (List.mem_cons_of_mem c hd),
      List.append_assoc, List.singleton_append]

/-! ### Escapes -/

/-- Escaping goes character by character. -/
theorem escapeSingle_cons (c : Char) (s : List Char) : escapeSingle (c :: s) =
    (if c = '\'' then ['\'', '\\', '\'', '\''] else [c]) ++ escapeSingle s := rfl

/-- In single quotes the escape of a text is read as the text. -/
theorem steps_escapeSingle (s w : List Char) :
    steps (.single w) (escapeSingle s) = some ([], .single (w ++ s)) := by
  induction s generalizing w with
  | nil => simp [escapeSingle, steps]
  | cons c s ih =>
    rw [escapeSingle_cons]
    have hpiece : steps (.single w) (if c = '\'' then ['\'', '\\', '\'', '\''] else [c]) =
        some ([], .single (w ++ [c])) := by
      split_ifs with hc
      · subst hc
        rfl
      · simp [steps, step, hc]
    rw [steps_trans hpiece (ih _), List.append_assoc, List.singleton_append]
    rfl

/-- In double quotes the escape is not undone. -/
theorem steps_double_escapeSingle (h : ∀ c ∈ s, isActive c = false) (w : List Char) :
    steps (.double w) (escapeSingle s) = some ([], .double (w ++ escapeSingle s)) := by
  induction s generalizing w with
  | nil => simp [escapeSingle, steps]
  | cons c s ih =>
    rw [escapeSingle_cons]
    have hpiece : steps (.double w) (if c = '\'' then ['\'', '\\', '\'', '\''] else [c]) =
        some ([], .double (w ++ if c = '\'' then ['\'', '\\', '\'', '\''] else [c])) := by
      split_ifs with hc
      · simp [steps, step, isActive]
      · exact steps_double (by simpa using h c List.mem_cons_self) w
    rw [steps_trans hpiece (ih (fun d hd => h d (List.mem_cons_of_mem c hd)) _), List.append_assoc]
    rfl

/-- Escaping does not shorten a text. -/
theorem length_le_escapeSingle (s : List Char) : s.length ≤ (escapeSingle s).length := by
  induction s with
  | nil => simp
  | cons c s ih =>
    rw [escapeSingle_cons, List.length_append]
    split_ifs <;> simp <;> omega

/-- A text is its own escape if it has no quote. -/
theorem escapeSingle_eq_iff {s : List Char} : escapeSingle s = s ↔ '\'' ∉ s := by
  induction s with
  | nil => simp [escapeSingle]
  | cons c s ih =>
    rw [escapeSingle_cons]
    split_ifs with hc
    · -- The escape of a quote is longer.
      subst hc
      simp only [List.mem_cons, true_or, not_true_eq_false, iff_false]
      intro heq
      have hlength := congrArg List.length heq
      have hle := length_le_escapeSingle s
      simp only [List.length_append, List.length_cons, List.length_nil] at hlength
      omega
    · simp [ih, Ne.symm hc]

end Lace.Library.Shell
