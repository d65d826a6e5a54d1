import Mathlib.Algebra.GroupWithZero.Nat
import Lace.LLM.Conversation

/-!
# Pruning by tokens

`prune_history_by_tokens` without a compactor: behind the system prompt, the oldest messages go
until the estimate is within the budget. An assistant message with tool calls goes together with its
results, pinned messages and the last message stay.

The loop of the source walks through the history with an index and erases behind it. Here it runs on
the messages from the index on; the ones in front are not looked at again.

## Main definitions

* `estimateTokens`, `pruneRounds`, `pruneHistoryByTokens`: the functions of the source;
* `units`: a history, cut into messages and tool batches;
* `Prunes`: what the loop can do;
* `withCaller`: each message with the one whose batch it is in.

## Main results

* `pruneRounds_prunes`: the loop does nothing else;
* `pruneHistoryByTokens_prunedWell`: what is kept, and what can be left above the budget.
-/

namespace Lace.LLM

open scoped List

/-- `estimate_tokens`: a quarter of the bytes, and four for the framing. -/
def estimateTokens (m : ChatMessage) : ℕ :=
  let chars := m.content.utf8ByteSize +
    ((m.toolCalls.getD []).map fun tc =>
      tc.toolname.utf8ByteSize + tc.arguments.utf8ByteSize + 8).sum
  chars / 4 + 4

/-- `total`: the estimate of a history. -/
def totalTokens (history : List ChatMessage) : ℕ := (history.map estimateTokens).sum

/-- An assistant message with tool calls. -/
def ChatMessage.opensBatch (m : ChatMessage) : Bool :=
  m.role == .assistant && !(m.toolCalls.getD []).isEmpty

/-- The messages behind `m` up to `spanEnd`. -/
def batchOf (m : ChatMessage) (ms : List ChatMessage) : List ChatMessage :=
  if m.opensBatch then ms.takeWhile (·.role == .tool) else []

/-- The messages from `spanEnd` on. -/
def behindBatch (m : ChatMessage) (ms : List ChatMessage) : List ChatMessage :=
  if m.opensBatch then ms.dropWhile (·.role == .tool) else ms

/-- A history after a message is its batch and what stands behind it. -/
theorem batchOf_append_behindBatch (m : ChatMessage) (ms : List ChatMessage) :
    batchOf m ms ++ behindBatch m ms = ms := by
  rw [batchOf, behindBatch]
  split_ifs
  · exact List.takeWhile_append_dropWhile
  · rfl

/-- So a history is its first unit and what stands behind it. -/
theorem cons_eq_append_behindBatch (m : ChatMessage) (ms : List ChatMessage) :
    m :: ms = (m :: batchOf m ms) ++ behindBatch m ms := by
  rw [List.cons_append, batchOf_append_behindBatch]

/-- What stands behind a batch is no longer than the history. -/
theorem length_behindBatch_le (m : ChatMessage) (ms : List ChatMessage) :
    (behindBatch m ms).length ≤ ms.length := by
  conv_rhs => rw [← batchOf_append_behindBatch m ms, List.length_append]
  exact Nat.le_add_left _ _

/-- The loop, from its index on. -/
def pruneRounds (maxTokens : ℕ) (total : ℕ) (rest : List ChatMessage) : List ChatMessage :=
  if total ≤ maxTokens then rest
  else
    match rest with
    | [] => []
    | m :: ms =>
      -- Never drop the most recent message.
      if ms = [] then m :: ms
      -- The results of a pinned message are looked at one by one.
      else if m.pinned then m :: pruneRounds maxTokens total ms
      else
        let span := m :: batchOf m ms
        if span.any (·.pinned) then span ++ pruneRounds maxTokens total (behindBatch m ms)
        -- The span would swallow the most recent message.
        else if behindBatch m ms = [] then m :: ms
        else pruneRounds maxTokens (total - totalTokens span) (behindBatch m ms)
termination_by rest.length
decreasing_by
  · simp
  all_goals exact Nat.lt_succ_of_le (length_behindBatch_le m ms)

/-- The orphan guard. -/
def orphanGuard (rest : List ChatMessage) : List ChatMessage :=
  rest.dropWhile fun m => m.role == .tool && !m.pinned

/-- `startIdx`: the system prompt a history starts with is not looked at. -/
def startIdx (history : List ChatMessage) : ℕ :=
  match history with
  | [] => 0
  | first :: _ => if first.role = .system then 1 else 0

/-- `prune_history_by_tokens`, without a compactor. -/
def pruneHistoryByTokens (maxTokens : ℕ) (history : List ChatMessage) : List ChatMessage :=
  let total := totalTokens history
  if total ≤ maxTokens then history
  else
    history.take (startIdx history) ++
      orphanGuard (pruneRounds maxTokens total (history.drop (startIdx history)))

/-! ### Units -/

/-- A history, cut into tool batches with the message that opens them, and single messages. -/
def units : List ChatMessage → List (List ChatMessage)
  | [] => []
  | m :: ms => (m :: batchOf m ms) :: units (behindBatch m ms)
termination_by history => history.length
decreasing_by exact Nat.lt_succ_of_le (length_behindBatch_le m ms)

/-- Every unit in front of the last one holds a pinned message. -/
def HeldByPins (rest : List ChatMessage) : Prop :=
  ∀ u ∈ (units rest).dropLast, ∃ m ∈ u, m.pinned = true

instance (rest : List ChatMessage) : Decidable (HeldByPins rest) :=
  inferInstanceAs (Decidable (∀ u ∈ (units rest).dropLast, _))

variable {maxTokens total : ℕ} {m : ChatMessage} {ms rest result : List ChatMessage}

@[simp]
theorem units_nil : units [] = [] := by rw [units]

/-- The first unit is a message with its batch. -/
theorem units_cons : units (m :: ms) = (m :: batchOf m ms) :: units (behindBatch m ms) := by
  rw [units]

/-- A batch has tool messages only. -/
theorem mem_batchOf_role {x : ChatMessage} (hx : x ∈ batchOf m ms) : x.role = .tool := by
  rw [batchOf] at hx
  split_ifs at hx
  · simpa using List.mem_takeWhile_imp hx
  · exact absurd hx List.not_mem_nil

/-- A tool message opens no batch. -/
theorem opensBatch_eq_false_of_tool (hm : m.role = .tool) : m.opensBatch = false := by
  rw [ChatMessage.opensBatch, hm]
  rfl

/-- Tool messages are units of their own where nothing opens a batch in front of them. -/
theorem units_append_of_tools {ts : List ChatMessage} (hts : ∀ t ∈ ts, t.role = .tool) :
    units (ts ++ rest) = ts.map (fun t => [t]) ++ units rest := by
  induction ts with
  | nil => rfl
  | cons t ts ih =>
    have ht := opensBatch_eq_false_of_tool (hts t List.mem_cons_self)
    rw [List.cons_append, units_cons, batchOf, behindBatch, if_neg (by simp [ht]),
      if_neg (by simp [ht]), ih fun t ht => hts t (List.mem_cons_of_mem _ ht)]
    rfl

theorem mem_dropLast_append {α : Type*} {a : α} {l l' : List α} (h : a ∈ l'.dropLast) :
    a ∈ (l ++ l').dropLast := by
  have hne : l' ≠ [] := by
    rintro rfl
    exact absurd h List.not_mem_nil
  rw [List.dropLast_append_of_ne_nil hne]
  exact List.mem_append_right _ h

/-- What is held by pins stays so without the tool messages in front. -/
theorem HeldByPins.of_append {ts : List ChatMessage} (hts : ∀ t ∈ ts, t.role = .tool)
    (h : HeldByPins (ts ++ rest)) : HeldByPins rest := fun u hu =>
  h u (by rw [units_append_of_tools hts]; exact mem_dropLast_append hu)

/-- Putting a message with its batch, or a part of it, in front of pruned messages. -/
theorem HeldByPins.span {ts : List ChatMessage} (hts : ∀ t ∈ ts, t.role = .tool)
    (hopens : ts ≠ [] → m.opensBatch = true) (hpin : ∃ x ∈ m :: ts, x.pinned = true)
    (h : HeldByPins result) : HeldByPins (m :: (ts ++ result)) := by
  intro u hu
  rw [units_cons] at hu
  -- The unit of `m` holds a pinned message; the others are units of what is behind it.
  have hfirst : ∀ x ∈ m :: ts, x ∈ m :: batchOf m (ts ++ result) := by
    rw [batchOf]
    split_ifs with hm
    · rw [List.takeWhile_append_of_pos (by simpa using hts)]
      rw [← List.cons_append]
      exact fun x hx => List.mem_append_left _ hx
    · obtain rfl : ts = [] := by_contra fun hne => hm (hopens hne)
      exact fun x hx => hx
  have hbehind : HeldByPins (behindBatch m (ts ++ result)) := by
    rw [behindBatch]
    split_ifs with hm
    · rw [List.dropWhile_append_of_pos (by simpa using hts)]
      rw [← List.takeWhile_append_dropWhile (p := fun x : ChatMessage => x.role == .tool)
        (l := result)] at h
      exact HeldByPins.of_append (fun t ht => by simpa using List.mem_takeWhile_imp ht) h
    · obtain rfl : ts = [] := by_contra fun hne => hm (hopens hne)
      exact h
  have hu' : u = m :: batchOf m (ts ++ result) ∨
      u ∈ (units (behindBatch m (ts ++ result))).dropLast := by
    cases hunits : units (behindBatch m (ts ++ result)) with
    | nil => rw [hunits] at hu; exact absurd hu List.not_mem_nil
    | cons v vs =>
      rw [hunits, List.dropLast_cons_of_ne_nil (List.cons_ne_nil _ _)] at hu
      exact List.mem_cons.mp hu
  rcases hu' with rfl | hu'
  · obtain ⟨x, hx, hpinned⟩ := hpin
    exact ⟨x, hfirst x hx, hpinned⟩
  · exact hbehind u hu'

/-! ### What the loop can do -/

/-- What the loop makes of the messages from its index on: it stops within the budget or at the last
unit, goes past messages that are pinned or in a batch with one, and drops others. -/
inductive Prunes (maxTokens : ℕ) : ℕ → List ChatMessage → List ChatMessage → Prop
  /-- Nothing more is dropped. -/
  | stop {total : ℕ} {rest : List ChatMessage}
      (h : total ≤ maxTokens ∨ (units rest).dropLast = []) : Prunes maxTokens total rest rest
  /-- A message with a part of its batch is kept for a pin. -/
  | keep {total : ℕ} {m : ChatMessage} {ts behind result : List ChatMessage}
      (hts : ∀ t ∈ ts, t.role = .tool) (hopens : ts ≠ [] → m.opensBatch = true)
      (hpin : ∃ x ∈ m :: ts, x.pinned = true) (h : Prunes maxTokens total behind result) :
      Prunes maxTokens total (m :: (ts ++ behind)) (m :: (ts ++ result))
  /-- A message goes with its batch. -/
  | drop {total : ℕ} {m : ChatMessage} {ms result : List ChatMessage}
      (hpin : ∀ x ∈ m :: batchOf m ms, x.pinned = false) (hbehind : behindBatch m ms ≠ [])
      (h : Prunes maxTokens (total - totalTokens (m :: batchOf m ms)) (behindBatch m ms) result) :
      Prunes maxTokens total (m :: ms) result

/-- Only a message that opens a batch has one. -/
theorem opensBatch_of_batchOf_ne_nil (h : batchOf m ms ≠ []) : m.opensBatch = true :=
  by_contra fun hm => h (if_neg hm)

/-- The loop is one of these. -/
theorem pruneRounds_prunes (maxTokens total : ℕ) (rest : List ChatMessage) :
    Prunes maxTokens total rest (pruneRounds maxTokens total rest) := by
  fun_induction pruneRounds maxTokens total rest with
  | case1 total rest h => exact .stop (.inl h)
  | case2 total h => exact .stop (.inr (by rw [units_nil]; rfl))
  | case3 total h m => exact .stop (.inr (by simp [units_cons, batchOf, behindBatch]))
  | case4 total h m ms hms hpin ih =>
    -- A pinned message is kept without its batch.
    have hnil : ∀ t ∈ ([] : List ChatMessage), t.role = .tool := fun t ht =>
      absurd ht List.not_mem_nil
    exact .keep hnil (fun hne => absurd rfl hne) ⟨m, List.mem_cons_self, hpin⟩ ih
  | case5 total h m ms hms hpin span hany ih =>
    -- The batch has a pinned result, so all of it is kept.
    have hkeep := Prunes.keep (fun t ht => mem_batchOf_role ht) opensBatch_of_batchOf_ne_nil
      (List.any_eq_true.mp hany) ih
    rwa [batchOf_append_behindBatch] at hkeep
  | case6 total h m ms hms hpin span hany hbehind =>
    -- The batch is the last unit.
    exact .stop (.inr (by rw [units_cons, hbehind, units_nil]; rfl))
  | case7 total h m ms hms hpin span hany hbehind ih =>
    refine .drop (fun x hx => ?_) hbehind ih
    exact Bool.eq_false_iff.mpr fun hx' => hany (List.any_eq_true.mpr ⟨x, hx, hx'⟩)

namespace Prunes

/-- Pruning keeps the last message. -/
theorem getLast?_eq (h : Prunes maxTokens total rest result) :
    result.getLast? = rest.getLast? := by
  induction h with
  | stop => rfl
  | @keep total m ts behind result _ _ _ _ ih =>
    rw [← List.cons_append, ← List.cons_append, List.getLast?_append, List.getLast?_append, ih]
  | @drop total m ms result _ hbehind _ ih =>
    rw [ih, cons_eq_append_behindBatch m ms, List.getLast?_append_of_ne_nil _ hbehind]

/-- Pruning keeps the pinned messages. -/
theorem filter_pinned_eq (h : Prunes maxTokens total rest result) :
    result.filter (·.pinned) = rest.filter (·.pinned) := by
  induction h with
  | stop => rfl
  | keep _ _ _ _ ih =>
    rw [← List.cons_append, ← List.cons_append, List.filter_append, List.filter_append, ih]
  | @drop total m ms result hpin _ _ ih =>
    have hnone : (m :: batchOf m ms).filter (·.pinned) = [] := by
      rw [List.filter_eq_nil_iff]
      intro x hx
      rw [hpin x hx]
      exact Bool.false_ne_true
    rw [ih, cons_eq_append_behindBatch m ms, List.filter_append, hnone, List.nil_append]

/-- With the budget still exceeded, the pins hold what is left in front of the last unit. The total
counts `kept` for the messages in front of the index. -/
theorem heldByPins (h : Prunes maxTokens total rest result) (kept : ℕ)
    (htotal : total = kept + totalTokens rest) (hover : maxTokens < kept + totalTokens result) :
    HeldByPins result := by
  induction h generalizing kept with
  | stop h =>
    rcases h with h | h
    · omega
    · rw [HeldByPins, h]
      exact fun u hu => absurd hu List.not_mem_nil
  | @keep total m ts behind result hts hopens hpin _ ih =>
    refine HeldByPins.span hts hopens hpin (ih (kept + totalTokens (m :: ts)) ?_ ?_)
    · rw [htotal, totalTokens, totalTokens, totalTokens, ← List.cons_append, List.map_append,
        List.sum_append, Nat.add_assoc]
    · rwa [Nat.add_assoc, totalTokens, totalTokens, ← List.sum_append, ← List.map_append]
  | @drop total m ms result _ _ _ ih =>
    -- The running total loses what the batch counted for.
    refine ih kept ?_ hover
    have hsplit : totalTokens (m :: ms) =
        totalTokens (m :: batchOf m ms) + totalTokens (behindBatch m ms) := by
      rw [totalTokens, totalTokens, totalTokens, ← List.sum_append, ← List.map_append,
        ← cons_eq_append_behindBatch]
    rw [htotal, hsplit]
    omega

end Prunes

/-! ### Tool messages and their callers -/

/-- The latest message that is no tool message, `c` being that of the messages in front. -/
def nextCaller (c : Option ChatMessage) (m : ChatMessage) : Option ChatMessage :=
  if m.role = .tool then c else some m

/-- Each message with the one whose batch it is in, `c` being the latest message in front that is no
tool message: a tool message follows `c`, any other message stands on its own. -/
def withCaller : Option ChatMessage → List ChatMessage → List (ChatMessage × Option ChatMessage)
  | _, [] => []
  | c, m :: ms =>
    (m, if m.role = .tool then c else none) :: withCaller (nextCaller c m) ms

/-- The caller issued the call that the message answers. -/
def Answers (m c : ChatMessage) : Prop := ∃ id ∈ c.issued.map (·.id), m.toolCallId = some id

/-- Every tool message answers a call of its caller. -/
def AllAnswer (l : List (ChatMessage × Option ChatMessage)) : Prop :=
  ∀ x ∈ l, x.1.role = .tool → ∃ a, x.2 = some a ∧ Answers x.1 a

variable {c : Option ChatMessage}

/-- The messages with their callers are the messages. -/
theorem map_fst_withCaller (c : Option ChatMessage) (ms : List ChatMessage) :
    (withCaller c ms).map Prod.fst = ms := by
  induction ms generalizing c with
  | nil => rfl
  | cons m ms ih => rw [withCaller, List.map_cons, ih]

/-- The callers in the second part depend on the last one of the first. -/
theorem withCaller_append (c : Option ChatMessage) (ms ms' : List ChatMessage) :
    withCaller c (ms ++ ms') = withCaller c ms ++ withCaller (ms.foldl nextCaller c) ms' := by
  induction ms generalizing c with
  | nil => rfl
  | cons m ms ih =>
    rw [List.cons_append, withCaller, ih, withCaller, List.foldl_cons, List.cons_append]

/-- The promise of a history, read off its callers. -/
theorem noOrphansFrom_iff_allAnswer {ids : List String}
    (hids : ∀ id, id ∈ ids ↔ ∃ a, c = some a ∧ id ∈ a.issued.map (·.id)) :
    NoOrphansFrom ids ms ↔ AllAnswer (withCaller c ms) := by
  induction ms generalizing c ids with
  | nil => simp [NoOrphansFrom, withCaller, AllAnswer]
  | cons m ms ih =>
    rw [NoOrphansFrom, withCaller, AllAnswer, List.forall_mem_cons, nextIds, nextCaller]
    split_ifs with hm
    · -- A tool message leaves the caller and its ids as they are.
      rw [ih hids]
      refine and_congr_left fun _ => imp_congr_right fun _ => ?_
      constructor
      · rintro ⟨id, hid, hanswer⟩
        obtain ⟨a, ha, hissued⟩ := (hids id).mp hid
        exact ⟨a, ha, id, hissued, hanswer⟩
      · rintro ⟨a, ha, id, hissued, hanswer⟩
        exact ⟨id, (hids id).mpr ⟨a, ha, hissued⟩, hanswer⟩
    · -- Any other message is the caller of what follows it.
      rw [ih (c := some m) (by simp)]
      exact and_congr_left fun _ => iff_of_true (fun htool => absurd htool hm)
        fun htool => absurd htool hm

/-- There are no orphans exactly if every tool message answers its caller. -/
theorem noOrphans_iff_allAnswer : NoOrphans ms ↔ AllAnswer (withCaller none ms) :=
  noOrphansFrom_iff_allAnswer (by simp)

/-- What starts with no tool message has the same callers behind any message. -/
theorem withCaller_of_head (c c' : Option ChatMessage)
    (h : ∀ a, ms.head? = some a → a.role ≠ .tool) : withCaller c ms = withCaller c' ms := by
  cases ms with
  | nil => rfl
  | cons a l =>
    have ha := h a rfl
    simp only [withCaller, nextCaller, if_neg ha]

/-- Tool messages with their caller stand behind no other message than before when a message goes
with its batch. -/
theorem withCaller_behindBatch (hno : AllAnswer (withCaller c (m :: ms))) :
    withCaller c (behindBatch m ms) =
      withCaller ((m :: batchOf m ms).foldl nextCaller c) (behindBatch m ms) := by
  by_cases htool : m.role = .tool
  · -- A tool message on its own leaves the caller as it is.
    have hm := opensBatch_eq_false_of_tool htool
    rw [batchOf, if_neg (by simp [hm]), List.foldl_cons, List.foldl_nil, nextCaller, if_pos htool]
  · refine withCaller_of_head _ _ fun a ha => ?_
    rw [behindBatch] at ha
    split_ifs at ha with hm
    · have hhead := List.head?_dropWhile_not (·.role == .tool) ms
      rw [ha] at hhead
      simpa using hhead
    · -- Nothing answers a message without calls.
      intro hatool
      obtain ⟨l, rfl⟩ := List.head?_eq_some_iff.mp ha
      have hmem : (a, some m) ∈ withCaller c (m :: a :: l) := by
        simp [withCaller, nextCaller, htool, hatool]
      obtain ⟨b, hb, id, hid, -⟩ := hno _ hmem hatool
      obtain rfl : m = b := Option.some.inj hb
      rw [ChatMessage.issued] at hid
      split_ifs at hid with hrole
      · -- A message that issues calls opens a batch, which `m` does not.
        refine hm ?_
        rw [ChatMessage.opensBatch, hrole]
        cases hcalls : m.toolCalls.getD [] with
        | nil => rw [hcalls] at hid; exact absurd hid List.not_mem_nil
        | cons => rfl
      · exact absurd hid List.not_mem_nil

/-- What is left keeps its callers. -/
theorem Prunes.withCaller_sublist (h : Prunes maxTokens total rest result)
    (hno : AllAnswer (withCaller c rest)) : withCaller c result <+ withCaller c rest := by
  induction h generalizing c with
  | stop => exact List.Sublist.refl _
  | @keep total m ts behind result _ _ _ _ ih =>
    rw [← List.cons_append, ← List.cons_append, withCaller_append, withCaller_append]
    rw [← List.cons_append, withCaller_append] at hno
    exact (ih fun x hx => hno x (List.mem_append_right _ hx)).append_left _
  | @drop total m ms result _ _ _ ih =>
    have hbehind := withCaller_behindBatch hno
    rw [cons_eq_append_behindBatch m ms, withCaller_append] at hno ⊢
    rw [← hbehind] at hno ⊢
    exact (ih fun x hx => hno x (List.mem_append_right _ hx)).trans (List.sublist_append_right _ _)

/-! ### The pruned history -/

/-- The orphan guard finds no orphans. -/
theorem orphanGuard_eq_self (h : NoOrphansFrom [] rest) : orphanGuard rest = rest := by
  cases rest with
  | nil => rfl
  | cons m ms =>
    have hm : m.role ≠ .tool := by
      intro htool
      obtain ⟨id, hid, -⟩ := h.1 htool
      exact List.not_mem_nil hid
    rw [orphanGuard, List.dropWhile_cons_of_neg]
    simp [hm]

/-- What pruning by tokens promises for a history. -/
structure PrunedWell (maxTokens : ℕ) (history result : List ChatMessage) : Prop where
  /-- A system prompt in front stays there. -/
  system : ∀ first ∈ history.head?, first.role = .system → result.head? = some first
  /-- The last message stays. -/
  last : result.getLast? = history.getLast?
  /-- The pinned messages stay. -/
  pinned : result.filter (·.pinned) = history.filter (·.pinned)
  /-- The messages that are left keep their order. -/
  sublist : result <+ history
  /-- Each tool message that is left keeps the assistant message it follows. -/
  callers : withCaller none result <+ withCaller none history
  /-- Each tool message follows the assistant message that issued its call. -/
  noOrphans : NoOrphans result
  /-- Above the budget, the pins hold what is left between the system prompt and the last unit. -/
  maximal : maxTokens < totalTokens result → HeldByPins (result.drop (startIdx history))

variable {history : List ChatMessage}

/-- The start of a history has the length that is computed for it. -/
theorem length_take_startIdx (history : List ChatMessage) :
    (history.take (startIdx history)).length = startIdx history := by
  cases history with
  | nil => rfl
  | cons first rest =>
    rw [startIdx]
    split_ifs <;> rfl

/-- What stands in front of the loop issues no calls. -/
theorem issued_eq_nil_of_startIdx {a : ChatMessage}
    (h : (history.take (startIdx history)).foldl nextCaller none = some a) : a.issued = [] := by
  cases history with
  | nil => exact absurd h (by simp)
  | cons first rest =>
    rw [startIdx] at h
    split_ifs at h with hfirst
    · obtain rfl : first = a := by simpa [nextCaller, hfirst] using h
      rw [ChatMessage.issued, if_neg (by simp [hfirst])]
    · exact absurd h (by simp)

/-- The loop keeps the promise with what stands in front of it. -/
theorem Prunes.prunedWell (h : Prunes maxTokens (totalTokens history)
      (history.drop (startIdx history)) result) (hno : NoOrphans history) :
    PrunedWell maxTokens history (history.take (startIdx history) ++ result) ∧
      orphanGuard result = result := by
  have hsplit := List.take_append_drop (startIdx history) history
  have hall := noOrphans_iff_allAnswer.mp hno
  rw [← hsplit, withCaller_append] at hall
  -- The kept messages keep their callers, so the whole list does.
  have hcallers := h.withCaller_sublist fun x hx => hall x (List.mem_append_right _ hx)
  have hcallers' : withCaller none (history.take (startIdx history) ++ result) <+
      withCaller none history := by
    conv_rhs => rw [← hsplit, withCaller_append]
    rw [withCaller_append]
    exact hcallers.append_left _
  refine ⟨⟨?_, ?_, ?_, ?_, hcallers', ?_, ?_⟩, ?_⟩
  · intro first hfirst hrole
    obtain ⟨rest, rfl⟩ := List.head?_eq_some_iff.mp hfirst
    rw [startIdx, if_pos hrole]
    rfl
  · conv_rhs => rw [← hsplit, List.getLast?_append]
    rw [List.getLast?_append, h.getLast?_eq]
  · conv_rhs => rw [← hsplit, List.filter_append]
    rw [List.filter_append, h.filter_pinned_eq]
  · -- The messages are those that have callers, in the same order.
    have hsub := hcallers'.map Prod.fst
    rwa [map_fst_withCaller, map_fst_withCaller] at hsub
  · exact noOrphans_iff_allAnswer.mpr fun x hx =>
      noOrphans_iff_allAnswer.mp hno x (hcallers'.subset hx)
  · intro hover
    -- What is still too long is so for the pinned messages alone.
    rw [List.drop_left' (length_take_startIdx history)]
    refine h.heldByPins (totalTokens (history.take (startIdx history))) ?_ ?_
    · conv_lhs => rw [← hsplit]
      rw [totalTokens, List.map_append, List.sum_append]
      rfl
    · rwa [totalTokens, List.map_append, List.sum_append] at hover
  · -- The first message of the result has no caller, so it is no tool message.
    refine orphanGuard_eq_self ((noOrphansFrom_iff_allAnswer ?_).mpr
      fun x hx => hall x (List.mem_append_right _ (hcallers.subset hx)))
    refine fun id => iff_of_false List.not_mem_nil ?_
    rintro ⟨a, ha, hid⟩
    rw [issued_eq_nil_of_startIdx ha] at hid
    exact List.not_mem_nil hid

/-- Pruning by tokens keeps its promise for every history in which the tool messages follow their
callers, whatever is pinned and whatever the budget. -/
theorem pruneHistoryByTokens_prunedWell (maxTokens : ℕ) (history : List ChatMessage)
    (hno : NoOrphans history) :
    PrunedWell maxTokens history (pruneHistoryByTokens maxTokens history) := by
  rw [pruneHistoryByTokens]
  split_ifs with hle
  · exact
      { system := fun first hfirst _ => hfirst
        last := rfl
        pinned := rfl
        sublist := List.Sublist.refl _
        callers := List.Sublist.refl _
        noOrphans := hno
        maximal := fun hover => absurd hover (Nat.not_lt.mpr hle) }
  · -- The orphan guard has nothing to do.
    obtain ⟨hwell, hguard⟩ := (pruneRounds_prunes maxTokens (totalTokens history)
      (history.drop (startIdx history))).prunedWell hno
    rwa [hguard]

/-- A system prompt, a batch with one result and a question. -/
def oneBatchHistory : List ChatMessage :=
  [{ role := .system, content := "Find races in the driver." },
    { role := .assistant, content := "", toolCalls := some [⟨"c1", "get_lockset", "{}"⟩] },
    { role := .tool, content := "{}", toolCallId := some "c1" },
    { role := .user, content := "Go on." }]

/-- A history of one batch is pruned well. -/
theorem oneBatchHistory_prunedWell :
    PrunedWell 12 oneBatchHistory (pruneHistoryByTokens 12 oneBatchHistory) :=
  pruneHistoryByTokens_prunedWell 12 oneBatchHistory (by decide)

/-- The system prompt alone can be above the budget, and nothing pins it. -/
theorem oneBatchHistory_not_heldByPins :
    NoOrphans oneBatchHistory ∧ 12 < totalTokens (pruneHistoryByTokens 12 oneBatchHistory) ∧
      ¬HeldByPins (pruneHistoryByTokens 12 oneBatchHistory) := by
  decide +kernel

end Lace.LLM
