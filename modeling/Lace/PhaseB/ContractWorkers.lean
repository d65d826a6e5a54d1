import Mathlib.Algebra.BigOperators.Fin
import Mathlib.Algebra.Order.Group.Multiset
import Mathlib.Data.Multiset.Filter
import Lace.Library.Machine
import Lace.Library.Mutex
import Lace.PhaseB.BudgetedSessions

/-!
# The workers of phase A

The contracts of the threads are generated by several workers. A worker takes the next thread with
one atomic increment, looks up the objects that the thread touches, prints a line, talks to the
model, and stores the contract. The map of the contracts, the standard output and the token counts
of the client are shared; each has its mutex. What the model replies, and which worker moves next,
is open. A request may also throw: nothing in the worker catches the exception, so it is kept in the
worker's future, and `get` throws it again after the other workers have ended.

## Main definitions

* `ContractPhase`: what the phase reads;
* `Worker`, `PhaseA`: a worker, and the state of the phase with a log of what happened;
* `ContractPhase.step`: one step of a worker;
* `ContractPhase.Safe`, `ContractPhase.Joined`: what holds at every moment, and when all workers have
  ended.

## Main results

* `ContractPhase.safe_of_run`: the workers exclude each other, share no thread, and never block;
* `ContractPhase.joined_of_run`: when all workers have ended nothing is lost and nothing was done
  twice.
-/

namespace Lace.PhaseB

open Library

/-! ### The shared state -/

/-- `contractParallelism`: how many workers ask at the same time. -/
def contractParallelism (var : Option ℤ) : ℕ := max 1 (envInt var 4)

/-- A token count in a response, as `get<size_t>` sees it. -/
inductive TokenField
  /-- There is no such member. -/
  | missing
  /-- It is a number. -/
  | number (n : ℕ)
  /-- It is something else, and `get` throws. -/
  | other
  deriving DecidableEq, Repr

/-- What the field adds to its total. -/
def TokenField.tokens : TokenField → ℕ
  | .number n => n
  | .missing | .other => 0

/-- `usage` of a response; the model decides what it holds. -/
structure Usage where
  /-- `prompt_tokens`. -/
  promptTokens : TokenField
  /-- `completion_tokens`. -/
  completionTokens : TokenField
  deriving DecidableEq, Repr

/-- Counting the response throws, with the mutex of the statistics taken. -/
def Usage.throws (usage : Usage) : Bool :=
  usage.promptTokens = .other || usage.completionTokens = .other

/-- `TokenStats`: what the requests of all workers have cost. -/
structure TokenStats where
  /-- `total_prompt_tokens`. -/
  totalPromptTokens : ℕ := 0
  /-- `total_completion_tokens`. -/
  totalCompletionTokens : ℕ := 0
  /-- `total_requests`. -/
  totalRequests : ℕ := 0
  deriving DecidableEq, Repr

/-- What `chat` has made of the statistics when it leaves the section, by an exception or not: the
second count is not read if the first one throws. -/
def TokenStats.count (stats : TokenStats) (usage : Usage) : TokenStats where
  totalPromptTokens := stats.totalPromptTokens + usage.promptTokens.tokens
  totalCompletionTokens := stats.totalCompletionTokens +
    if usage.promptTokens = .other then 0 else usage.completionTokens.tokens
  totalRequests := stats.totalRequests + 1

/-- `std::map::emplace`: an entry that is there stays. -/
def emplace {C : Type} (contracts : Tid → Option C) (tid : Tid) (c : C) : Tid → Option C :=
  if (contracts tid).isSome then contracts else Function.update contracts tid (some c)

/-- What the phase reads. -/
structure ContractPhase where
  /-- `surface`. -/
  surface : VulnerabilitySurface
  /-- `objKeep`. -/
  objKeep : List ℤ
  /-- `threadById`. -/
  threadById : Tid → Option ThreadId
  /-- `tidsInPlay`. -/
  tidsInPlay : TidSet
  /-- `LACE_CONTRACT_PARALLELISM`. -/
  parallelismVar : Option ℤ

/-- What a worker is doing. A contract is of any type. -/
inductive Worker (C : Type)
  /-- It takes the next thread. -/
  | fetching
  /-- It looks up a thread and its objects. -/
  | resolving (tid : Tid)
  /-- It prints the line of the thread. -/
  | printing (tid : Tid) (stage : Stage (List Tid))
  /-- It is in `generateContractForThread`. -/
  | generating (tid : Tid)
  /-- It has got a response there, and counts its tokens. -/
  | counting (tid : Tid) (usage : Usage) (stage : Stage TokenStats)
  /-- It stores a contract. -/
  | storing (tid : Tid) (contract : C) (stage : Stage (Tid → Option C))
  /-- It has left the loop. -/
  | done
  /-- It has ended by an exception that was thrown while it worked on a thread. -/
  | failed (tid : Tid)

/-- The worker has left the loop: `get` of its future returns. -/
def Worker.isDone {C : Type} : Worker C → Bool
  | .done => true
  | _ => false

/-- The worker has ended: `get` of its future returns or throws. -/
def Worker.isStopped {C : Type} : Worker C → Bool
  | .done | .failed _ => true
  | _ => false

/-- A worker that is done has left its loop in the ordinary way. -/
theorem Worker.isDone_iff {C : Type} {w : Worker C} : w.isDone = true ↔ w = .done := by
  cases w <;> simp [isDone]

/-- A worker has ended when it has left the loop or thrown. -/
theorem Worker.isStopped_iff {C : Type} {w : Worker C} :
    w.isStopped = true ↔ w = .done ∨ ∃ tid, w = .failed tid := by
  cases w <;> simp [isStopped]

/-- What happens in the phase. -/
inductive Event (C : Type)
  | fetched (tid : Tid)
  | skipped (tid : Tid)
  | printed (tid : Tid)
  | responded (usage : Usage)
  | counted (usage : Usage)
  | generated (tid : Tid) (result : Option C)
  | threw (tid : Tid)
  | emplaced (tid : Tid) (contract : C)
  deriving DecidableEq

namespace Event

variable {C : Type}

/-- The thread that is taken. -/
def fetchedTid : Event C → Option Tid
  | fetched tid => some tid
  | _ => none

/-- The thread that is skipped, or whose generation has ended or thrown. -/
def settledTid : Event C → Option Tid
  | skipped tid | generated tid _ | threw tid => some tid
  | _ => none

/-- The thread whose line is printed. -/
def printedTid : Event C → Option Tid
  | printed tid => some tid
  | _ => none

/-- The thread whose generation has ended. -/
def generatedTid : Event C → Option Tid
  | generated tid _ => some tid
  | _ => none

/-- The thread whose generation has thrown. -/
def threwTid : Event C → Option Tid
  | threw tid => some tid
  | _ => none

/-- The thread whose generation has ended or thrown: a contract was asked for. -/
def askedTid : Event C → Option Tid
  | generated tid _ | threw tid => some tid
  | _ => none

/-- The thread that a worker is done with. -/
def releasedTid : Event C → Option Tid
  | skipped tid | generated tid none | threw tid | emplaced tid _ => some tid
  | _ => none

/-- The thread that is skipped, or whose line is printed. -/
def announcedTid : Event C → Option Tid
  | skipped tid | printed tid => some tid
  | _ => none

/-- The tokens of a response. -/
def respondedUsage : Event C → Option Usage
  | responded usage => some usage
  | _ => none

/-- The tokens that are counted. -/
def countedUsage : Event C → Option Usage
  | counted usage => some usage
  | _ => none

/-- The contract that a generation ends with. -/
def generatedContract : Event C → Option (Tid × C)
  | generated tid (some c) => some (tid, c)
  | _ => none

/-- The contract that is stored. -/
def emplacedContract : Event C → Option (Tid × C)
  | emplaced tid c => some (tid, c)
  | _ => none

end Event

/-- The phase with some workers. -/
structure PhaseA (W : ℕ) (C : Type) where
  /-- `nextTid`. -/
  nextTid : ℕ
  /-- The workers. -/
  worker : Fin W → Worker C
  /-- The threads whose line is printed, behind `coutMu`. -/
  output : Guarded (Fin W) (List Tid)
  /-- `token_stats_`, behind `stats_mutex_`. -/
  tokenStats : Guarded (Fin W) TokenStats
  /-- `contractsByTid`, behind `contractsMu`. -/
  contractsByTid : Guarded (Fin W) (Tid → Option C)
  /-- What has happened so far. The program does not keep it. -/
  log : List (Event C)

/-- What the outside decides: nothing, a response of the model, the end of a generation, or an
exception in it. `chat` throws after its last attempt and on a reply that it cannot read, and a tool
call throws on arguments of a wrong type. -/
inductive Reply (C : Type)
  | proceed
  | chat (usage : Usage)
  | contract (result : Option C)
  | throws

/-- The event of an update, as soon as it is written. -/
def committed {σ C : Type} (st : Stage σ) (e : Event C) : List (Event C) :=
  if st.isStored then [e] else []

namespace PhaseA

variable {W : ℕ} {C : Type}

/-- A worker moves on, and something may be logged. -/
def move (s : PhaseA W C) (i : Fin W) (w : Worker C) (events : List (Event C)) : PhaseA W C :=
  { s with worker := Function.update s.worker i w, log := s.log ++ events }

/-- All workers have left their loops: `get` of all futures returns. -/
def AllDone (s : PhaseA W C) : Prop := ∀ i, (s.worker i).isDone = true

instance (s : PhaseA W C) : Decidable s.AllDone :=
  inferInstanceAs (Decidable (∀ i, (s.worker i).isDone = true))

/-- All workers have ended. If one of them has thrown, so does the join, once the destructors of the
other futures have waited for their workers. -/
def AllStopped (s : PhaseA W C) : Prop := ∀ i, (s.worker i).isStopped = true

instance (s : PhaseA W C) : Decidable s.AllStopped :=
  inferInstanceAs (Decidable (∀ i, (s.worker i).isStopped = true))

/-- A join that returns finds all workers ended. -/
theorem AllDone.allStopped {s : PhaseA W C} (h : s.AllDone) : s.AllStopped := by
  intro i
  rw [Worker.isDone_iff.mp (h i)]
  rfl

end PhaseA

namespace ContractPhase

variable (P : ContractPhase)

/-- `tidsVec`. -/
def tidsVec : List Tid := P.tidsInPlay.toList

/-- `workers`: there are no more workers than threads to ask about. -/
def workers : ℕ := min (contractParallelism P.parallelismVar) P.tidsVec.length

/-- The object is kept, the thread accesses it, and it is shared or races with itself. -/
def touches (tid : Tid) (o : RatedObject) (oi : ObjectRef) : Bool :=
  (oi : ℤ) ∈ P.objKeep && tid ∈ o.accessingThreadIds.toList &&
    !(o.accessingThreadIds.toList.length < 2 && !o.isSelfRace)

/-- `touched`: the first objects of the thread, twenty at most. -/
def touched (tid : Tid) : List ObjectRef :=
  ((P.surface.sharedObjects.zipIdx.filter fun p => P.touches tid p.1 p.2).map Prod.snd).take 20

/-- A contract is asked for: the id has a thread, which touches something. -/
def asksFor (tid : Tid) : Bool := (P.threadById tid).isSome && !(P.touched tid).isEmpty

variable {C : Type}

/-- The state before the workers start. -/
def start (stats : TokenStats) : PhaseA P.workers C where
  nextTid := 0
  worker _ := .fetching
  output := ⟨[], none⟩
  tokenStats := ⟨stats, none⟩
  contractsByTid := ⟨fun _ => none, none⟩
  log := []

/-- One step of a worker, if it can go on. -/
def step (s : PhaseA P.workers C) (input : Fin P.workers × Reply C) :
    Option (PhaseA P.workers C) :=
  let i := input.1
  match s.worker i, input.2 with
  | .fetching, .proceed =>
    -- `fetch_add` also counts the attempts behind the last thread.
    let s' := { s with nextTid := s.nextTid + 1 }
    match P.tidsVec[s.nextTid]? with
    | some tid => some (s'.move i (.resolving tid) [.fetched tid])
    | none => some (s'.move i .done [])
  | .resolving tid, .proceed =>
    if P.asksFor tid then some (s.move i (.printing tid .waiting) [])
    else some (s.move i .fetching [.skipped tid])
  | .printing tid .stored, .proceed =>
    some ({ s with output := s.output.unlock }.move i (.generating tid) [])
  | .printing tid st, .proceed =>
    (s.output.step i (· ++ [tid]) st).map fun r =>
      { s with output := r.1 }.move i (.printing tid r.2) (committed r.2 (.printed tid))
  | .generating tid, .chat usage =>
    some (s.move i (.counting tid usage .waiting) [.responded usage])
  | .counting tid usage .stored, .proceed =>
    -- The guard gives the mutex back, also when `get` has thrown.
    let s' := { s with tokenStats := s.tokenStats.unlock }
    if usage.throws then some (s'.move i (.failed tid) [.threw tid])
    else some (s'.move i (.generating tid) [])
  | .counting tid usage st, .proceed =>
    (s.tokenStats.step i (·.count usage) st).map fun r =>
      { s with tokenStats := r.1 }.move i (.counting tid usage r.2)
        (committed r.2 (.counted usage))
  | .generating tid, .throws => some (s.move i (.failed tid) [.threw tid])
  | .generating tid, .contract none => some (s.move i .fetching [.generated tid none])
  | .generating tid, .contract (some c) =>
    some (s.move i (.storing tid c .waiting) [.generated tid (some c)])
  | .storing _ _ .stored, .proceed =>
    some ({ s with contractsByTid := s.contractsByTid.unlock }.move i .fetching [])
  | .storing tid c st, .proceed =>
    (s.contractsByTid.step i (emplace · tid c) st).map fun r =>
      { s with contractsByTid := r.1 }.move i (.storing tid c r.2)
        (committed r.2 (.emplaced tid c))
  | _, _ => none

/-! ### The steps -/

/-- What a worker can do. -/
inductive Step (s : PhaseA P.workers C) (i : Fin P.workers) : PhaseA P.workers C → Prop
  | fetch {tid : Tid} (hw : s.worker i = .fetching) (htid : P.tidsVec[s.nextTid]? = some tid) :
      Step s i ({ s with nextTid := s.nextTid + 1 }.move i (.resolving tid) [.fetched tid])
  | leave (hw : s.worker i = .fetching) (hend : P.tidsVec[s.nextTid]? = none) :
      Step s i ({ s with nextTid := s.nextTid + 1 }.move i .done [])
  | announce {tid : Tid} (hw : s.worker i = .resolving tid) (hasks : P.asksFor tid = true) :
      Step s i (s.move i (.printing tid .waiting) [])
  | skip {tid : Tid} (hw : s.worker i = .resolving tid) (hasks : P.asksFor tid = false) :
      Step s i (s.move i .fetching [.skipped tid])
  | print {tid : Tid} {st st' : Stage (List Tid)} {g : Guarded (Fin P.workers) (List Tid)}
      (hw : s.worker i = .printing tid st) (hst : st.isStored = false)
      (hstep : s.output.step i (· ++ [tid]) st = some (g, st')) :
      Step s i ({ s with output := g }.move i (.printing tid st') (committed st' (.printed tid)))
  | printed {tid : Tid} (hw : s.worker i = .printing tid .stored) :
      Step s i ({ s with output := s.output.unlock }.move i (.generating tid) [])
  | respond {tid : Tid} {usage : Usage} (hw : s.worker i = .generating tid) :
      Step s i (s.move i (.counting tid usage .waiting) [.responded usage])
  | count {tid : Tid} {usage : Usage} {st st' : Stage TokenStats}
      {g : Guarded (Fin P.workers) TokenStats} (hw : s.worker i = .counting tid usage st)
      (hst : st.isStored = false)
      (hstep : s.tokenStats.step i (·.count usage) st = some (g, st')) :
      Step s i ({ s with tokenStats := g }.move i (.counting tid usage st')
        (committed st' (.counted usage)))
  | counted {tid : Tid} {usage : Usage} (hw : s.worker i = .counting tid usage .stored)
      (hreads : usage.throws = false) :
      Step s i ({ s with tokenStats := s.tokenStats.unlock }.move i (.generating tid) [])
  | countThrows {tid : Tid} {usage : Usage} (hw : s.worker i = .counting tid usage .stored)
      (hthrows : usage.throws = true) :
      Step s i ({ s with tokenStats := s.tokenStats.unlock }.move i (.failed tid) [.threw tid])
  | throws {tid : Tid} (hw : s.worker i = .generating tid) :
      Step s i (s.move i (.failed tid) [.threw tid])
  | fail {tid : Tid} (hw : s.worker i = .generating tid) :
      Step s i (s.move i .fetching [.generated tid none])
  | generate {tid : Tid} {c : C} (hw : s.worker i = .generating tid) :
      Step s i (s.move i (.storing tid c .waiting) [.generated tid (some c)])
  | emplace {tid : Tid} {c : C} {st st' : Stage (Tid → Option C)}
      {g : Guarded (Fin P.workers) (Tid → Option C)} (hw : s.worker i = .storing tid c st)
      (hst : st.isStored = false)
      (hstep : s.contractsByTid.step i (PhaseB.emplace · tid c) st = some (g, st')) :
      Step s i ({ s with contractsByTid := g }.move i (.storing tid c st')
        (committed st' (.emplaced tid c)))
  | emplaced {tid : Tid} {c : C} (hw : s.worker i = .storing tid c .stored) :
      Step s i ({ s with contractsByTid := s.contractsByTid.unlock }.move i .fetching [])

variable {P} {s s' : PhaseA P.workers C} {i : Fin P.workers} {reply : Reply C}

/-- A step is one of these. -/
theorem step_cases (h : P.step s (i, reply) = some s') : P.Step s i s' := by
  unfold step at h
  dsimp only at h
  split at h
  -- The next thread of the budget is taken, or there is none left.
  next hw =>
    split at h
    next tid htid =>
      cases h
      exact .fetch hw htid
    next hend =>
      cases h
      exact .leave hw hend
  -- A thread without a Thread object or an access is skipped.
  next tid hw =>
    split_ifs at h with hasks
    · cases h
      exact .announce hw hasks
    · cases h
      exact .skip hw (by simpa using hasks)
  -- The line was printed.
  next tid hw =>
    cases h
    exact .printed hw
  -- Inside the output mutex, and likewise below inside the other two.
  next tid st hne hw =>
    obtain ⟨⟨g, st'⟩, hstep, rfl⟩ := Option.map_eq_some_iff.mp h
    exact .print hw (Guarded.isStored_of_step hstep) hstep
  -- A request is on its way, and answers with a usage.
  next tid usage hw =>
    cases h
    exact .respond hw
  -- Counting throws on a usage of the wrong type.
  next tid usage hw =>
    split_ifs at h with hthrows
    · cases h
      exact .countThrows hw hthrows
    · cases h
      exact .counted hw (by simpa using hthrows)
  next tid usage st hne hw =>
    obtain ⟨⟨g, st'⟩, hstep, rfl⟩ := Option.map_eq_some_iff.mp h
    exact .count hw (Guarded.isStored_of_step hstep) hstep
  -- A request throws, ends without a contract, or ends with one.
  next tid hw =>
    cases h
    exact .throws hw
  next tid hw =>
    cases h
    exact .fail hw
  next tid c hw =>
    cases h
    exact .generate hw
  next tid c hw =>
    cases h
    exact .emplaced hw
  next tid c st hne hw =>
    obtain ⟨⟨g, st'⟩, hstep, rfl⟩ := Option.map_eq_some_iff.mp h
    exact .emplace hw (Guarded.isStored_of_step hstep) hstep
  next => cases h

/-- A turn of a worker by itself: what it turns to, and what is logged. -/
inductive Turn (P : ContractPhase) : Worker C → Worker C → List (Event C) → Prop
  | fetch {tid : Tid} : Turn P .fetching (.resolving tid) [.fetched tid]
  | leave : Turn P .fetching .done []
  | announce {tid : Tid} (hasks : P.asksFor tid = true) :
      Turn P (.resolving tid) (.printing tid .waiting) []
  | skip {tid : Tid} (hasks : P.asksFor tid = false) :
      Turn P (.resolving tid) .fetching [.skipped tid]
  | print {tid : Tid} {st st' : Stage (List Tid)} (hst : st.isStored = false) :
      Turn P (.printing tid st) (.printing tid st') (committed st' (.printed tid))
  | printed {tid : Tid} : Turn P (.printing tid .stored) (.generating tid) []
  | respond {tid : Tid} {usage : Usage} :
      Turn P (.generating tid) (.counting tid usage .waiting) [.responded usage]
  | count {tid : Tid} {usage : Usage} {st st' : Stage TokenStats} (hst : st.isStored = false) :
      Turn P (.counting tid usage st) (.counting tid usage st') (committed st' (.counted usage))
  | counted {tid : Tid} {usage : Usage} (hreads : usage.throws = false) :
      Turn P (.counting tid usage .stored) (.generating tid) []
  | countThrows {tid : Tid} {usage : Usage} (hthrows : usage.throws = true) :
      Turn P (.counting tid usage .stored) (.failed tid) [.threw tid]
  | throws {tid : Tid} : Turn P (.generating tid) (.failed tid) [.threw tid]
  | fail {tid : Tid} : Turn P (.generating tid) .fetching [.generated tid none]
  | generate {tid : Tid} {c : C} :
      Turn P (.generating tid) (.storing tid c .waiting) [.generated tid (some c)]
  | emplace {tid : Tid} {c : C} {st st' : Stage (Tid → Option C)} (hst : st.isStored = false) :
      Turn P (.storing tid c st) (.storing tid c st') (committed st' (.emplaced tid c))
  | emplaced {tid : Tid} {c : C} : Turn P (.storing tid c .stored) .fetching []

/-- A step is a turn of its worker; the others do not change. -/
theorem Step.exists_turn (h : P.Step s i s') : ∃ w events, P.Turn (s.worker i) w events ∧
    s'.worker = Function.update s.worker i w ∧ s'.log = s.log ++ events := by
  cases h with
  | fetch hw htid => exact ⟨_, _, hw ▸ .fetch, rfl, rfl⟩
  | leave hw hend => exact ⟨_, _, hw ▸ .leave, rfl, rfl⟩
  | announce hw hasks => exact ⟨_, _, hw ▸ .announce hasks, rfl, rfl⟩
  | skip hw hasks => exact ⟨_, _, hw ▸ .skip hasks, rfl, rfl⟩
  | print hw hst hstep => exact ⟨_, _, hw ▸ .print hst, rfl, rfl⟩
  | printed hw => exact ⟨_, _, hw ▸ .printed, rfl, rfl⟩
  | respond hw => exact ⟨_, _, hw ▸ .respond, rfl, rfl⟩
  | count hw hst hstep => exact ⟨_, _, hw ▸ .count hst, rfl, rfl⟩
  | counted hw hreads => exact ⟨_, _, hw ▸ .counted hreads, rfl, rfl⟩
  | countThrows hw hthrows => exact ⟨_, _, hw ▸ .countThrows hthrows, rfl, rfl⟩
  | throws hw => exact ⟨_, _, hw ▸ .throws, rfl, rfl⟩
  | fail hw => exact ⟨_, _, hw ▸ .fail, rfl, rfl⟩
  | generate hw => exact ⟨_, _, hw ▸ .generate, rfl, rfl⟩
  | emplace hw hst hstep => exact ⟨_, _, hw ▸ .emplace hst, rfl, rfl⟩
  | emplaced hw => exact ⟨_, _, hw ▸ .emplaced, rfl, rfl⟩

end ContractPhase

/-! ### Nothing is lost between two events -/

/-- What the workers hold between an event that brings it in and an event that settles it. -/
structure Flow (C α : Type) where
  /-- What comes in. -/
  inn : Event C → Option α
  /-- What a worker holds. -/
  stock : Worker C → Option α
  /-- What is settled. -/
  out : Event C → Option α

/-- What a process holds that has not written. -/
def unstored {σ α : Type} (st : Stage σ) (a : α) : Option α := if st.isStored then none else some a

namespace Flow

variable {W : ℕ} {C α : Type}

/-- All that came in is held by a worker or settled. -/
def Balanced (F : Flow C α) (s : PhaseA W C) : Prop :=
  (s.log.filterMap F.inn : Multiset α) =
    (∑ j, ((F.stock (s.worker j)).toList : Multiset α)) + (s.log.filterMap F.out : Multiset α)

/-- A turn that keeps what it does not settle keeps the balance. -/
theorem Balanced.turn {F : Flow C α} {s s' : PhaseA W C} {i : Fin W} {w : Worker C}
    {events : List (Event C)} (h : F.Balanced s)
    (hlocal : (events.filterMap F.inn ++ (F.stock (s.worker i)).toList).Perm
      ((F.stock w).toList ++ events.filterMap F.out))
    (hworker : s'.worker = Function.update s.worker i w) (hlog : s'.log = s.log ++ events) :
    F.Balanced s' := by
  -- Only the stock of the worker changes.
  have hsum : (∑ j, ((F.stock (Function.update s.worker i w j)).toList : Multiset α)) +
      ((F.stock (s.worker i)).toList : Multiset α) =
        (∑ j, ((F.stock (s.worker j)).toList : Multiset α)) + ((F.stock w).toList : Multiset α) := by
    have hothers : ∀ j ∈ Finset.univ.erase i,
        ((F.stock (Function.update s.worker i w j)).toList : Multiset α) =
          ((F.stock (s.worker j)).toList : Multiset α) := by
      intro j hj
      rw [Function.update_of_ne (Finset.ne_of_mem_erase hj)]
    rw [← Finset.sum_erase_add Finset.univ _ (Finset.mem_univ i),
      ← Finset.sum_erase_add Finset.univ (fun j => ((F.stock (s.worker j)).toList : Multiset α))
        (Finset.mem_univ i), Function.update_self, Finset.sum_congr rfl hothers]
    abel
  have hlocal' := Multiset.coe_eq_coe.mpr hlocal
  rw [← Multiset.coe_add, ← Multiset.coe_add] at hlocal'
  rw [Balanced] at h ⊢
  refine add_right_cancel (b := ((F.stock (s.worker i)).toList : Multiset α)) ?_
  simp only [hworker, hlog, List.filterMap_append, ← Multiset.coe_add]
  -- What comes in with what the worker had is what it has now with what is settled.
  rw [add_assoc, hlocal', h]
  calc (∑ j, ((F.stock (s.worker j)).toList : Multiset α)) + (s.log.filterMap F.out : Multiset α) +
        (((F.stock w).toList : Multiset α) + (events.filterMap F.out : Multiset α))
      = (∑ j, ((F.stock (s.worker j)).toList : Multiset α)) + ((F.stock w).toList : Multiset α) +
        ((s.log.filterMap F.out : Multiset α) + (events.filterMap F.out : Multiset α)) := by abel
    _ = _ := by
      rw [← hsum]
      abel

/-- What comes in only once is held by one worker at most. -/
theorem Balanced.eq_of_stock {F : Flow C α} {s : PhaseA W C} (h : F.Balanced s)
    (hnodup : (s.log.filterMap F.inn).Nodup) {i j : Fin W} {a : α}
    (hi : F.stock (s.worker i) = some a) (hj : F.stock (s.worker j) = some a) : i = j := by
  classical
  by_contra hne
  have hcount : (s.log.filterMap F.inn).count a ≤ 1 := List.nodup_iff_count_le_one.mp hnodup a
  have hpair : Multiset.count a (∑ k ∈ {i, j}, ((F.stock (s.worker k)).toList : Multiset α)) = 2 := by
    simp [Finset.sum_pair hne, hi, hj]
  have hle : ∑ k ∈ {i, j}, ((F.stock (s.worker k)).toList : Multiset α) ≤
      ∑ k, ((F.stock (s.worker k)).toList : Multiset α) :=
    Finset.sum_le_sum_of_subset (Finset.subset_univ _)
  have hall := congrArg (Multiset.count a) h
  rw [Multiset.coe_count, Multiset.count_add] at hall
  have htwo := Multiset.count_le_of_le a hle
  omega

/-- When nobody holds anything, all that came in is settled. -/
theorem Balanced.perm {F : Flow C α} {s : PhaseA W C} (h : F.Balanced s)
    (hdone : ∀ i, F.stock (s.worker i) = none) :
    (s.log.filterMap F.inn).Perm (s.log.filterMap F.out) := by
  rw [Balanced] at h
  simp only [hdone, Option.toList_none, Multiset.coe_nil, Finset.sum_const_zero, zero_add] at h
  exact Multiset.coe_eq_coe.mp h

end Flow

/-- Threads that are taken: each is skipped, or its generation ends or throws. -/
def threadFlow {C : Type} : Flow C Tid where
  inn := Event.fetchedTid
  stock
    | .resolving tid | .printing tid _ | .generating tid | .counting tid _ _ => some tid
    | _ => none
  out := Event.settledTid

/-- The thread that a worker works on. -/
def Worker.ownTid {C : Type} : Worker C → Option Tid
  | .resolving tid | .printing tid _ | .generating tid | .counting tid _ _ => some tid
  | .storing tid _ st => unstored st tid
  | _ => none

/-- Threads that are taken: each stays with its worker until the worker is done with it. -/
def ownFlow {C : Type} : Flow C Tid where
  inn := Event.fetchedTid
  stock := Worker.ownTid
  out := Event.releasedTid

/-- Threads that are taken: each is skipped, or its line is printed. -/
def lineFlow {C : Type} : Flow C Tid where
  inn := Event.fetchedTid
  stock
    | .resolving tid => some tid
    | .printing tid st => unstored st tid
    | _ => none
  out := Event.announcedTid

/-- Responses: each is counted. -/
def usageFlow {C : Type} : Flow C Usage where
  inn := Event.respondedUsage
  stock
    | .counting _ usage st => unstored st usage
    | _ => none
  out := Event.countedUsage

/-- Exceptions: each stays with the worker that it has ended. -/
def throwFlow {C : Type} : Flow C Tid where
  inn := Event.threwTid
  stock
    | .failed tid => some tid
    | _ => none
  out _ := none

/-- Contracts: each is stored. -/
def contractFlow {C : Type} : Flow C (Tid × C) where
  inn := Event.generatedContract
  stock
    | .storing tid c st => unstored st (tid, c)
    | _ => none
  out := Event.emplacedContract

/-- A turn keeps what it does not settle. -/
def Flow.Conserves {C α : Type} (F : Flow C α) (P : ContractPhase) : Prop :=
  ∀ w w' : Worker C, ∀ events, P.Turn w w' events →
    (events.filterMap F.inn ++ (F.stock w).toList).Perm
      ((F.stock w').toList ++ events.filterMap F.out)

section flows

variable {C : Type} (P : ContractPhase)

/-- A turn keeps a thread that was taken, or settles it. -/
theorem conserves_threadFlow : (threadFlow (C := C)).Conserves P := by
  intro w w' events h
  cases h with
  | print | count | emplace =>
    rw [committed]
    split_ifs <;> exact .refl _
  | _ => exact .refl _

/-- A turn keeps the thread that its worker works on, or the worker is done with it. -/
theorem conserves_ownFlow : (ownFlow (C := C)).Conserves P := by
  intro w w' events h
  cases h with
  | emplace hst =>
    simp only [ownFlow, Worker.ownTid, unstored, hst, committed, Bool.false_eq_true, ↓reduceIte]
    split_ifs <;> exact .refl _
  | print | count =>
    rw [committed]
    split_ifs <;> exact .refl _
  | _ => exact .refl _

/-- A turn keeps the line of a thread until it is printed. -/
theorem conserves_lineFlow : (lineFlow (C := C)).Conserves P := by
  intro w w' events h
  cases h with
  | print hst =>
    simp only [lineFlow, unstored, hst, committed, Bool.false_eq_true, ↓reduceIte]
    split_ifs <;> exact .refl _
  | count | emplace =>
    rw [committed]
    split_ifs <;> exact .refl _
  | _ => exact .refl _

/-- A turn keeps the usage of a response until it is counted. -/
theorem conserves_usageFlow : (usageFlow (C := C)).Conserves P := by
  intro w w' events h
  cases h with
  | count hst =>
    simp only [usageFlow, unstored, hst, committed, Bool.false_eq_true, ↓reduceIte]
    split_ifs <;> exact .refl _
  | print | emplace =>
    rw [committed]
    split_ifs <;> exact .refl _
  | _ => exact .refl _

/-- A turn keeps an exception with its worker. -/
theorem conserves_throwFlow : (throwFlow (C := C)).Conserves P := by
  intro w w' events h
  cases h with
  | print | count | emplace =>
    rw [committed]
    split_ifs <;> exact .refl _
  | _ => exact .refl _

/-- A turn keeps a contract until it is stored. -/
theorem conserves_contractFlow : (contractFlow (C := C)).Conserves P := by
  intro w w' events h
  cases h with
  | emplace hst =>
    simp only [contractFlow, unstored, hst, committed, Bool.false_eq_true, ↓reduceIte]
    split_ifs <;> exact .refl _
  | print | count =>
    rw [committed]
    split_ifs <;> exact .refl _
  | _ => exact .refl _

end flows

/-! ### The invariant -/

/-- The section of a worker on the standard output. -/
def Worker.outputStage {C : Type} : Worker C → Option (Stage (List Tid))
  | .printing _ st => some st
  | _ => none

/-- The section of a worker on the token counts. -/
def Worker.statsStage {C : Type} : Worker C → Option (Stage TokenStats)
  | .counting _ _ st => some st
  | _ => none

/-- The section of a worker on the contracts. -/
def Worker.contractsStage {C : Type} : Worker C → Option (Stage (Tid → Option C))
  | .storing _ _ st => some st
  | _ => none

/-- The thread that a worker has found worth a contract. -/
def Worker.askedTid {C : Type} : Worker C → Option Tid
  | .printing tid _ | .generating tid | .counting tid _ _ => some tid
  | _ => none

/-- What is logged about the threads that are skipped, and about those that are not. -/
def ContractPhase.Admits {C : Type} (P : ContractPhase) : Event C → Prop
  | .skipped tid => P.asksFor tid = false
  | .printed tid | .generated tid _ | .threw tid => P.asksFor tid = true
  | _ => True

namespace ContractPhase

variable {P : ContractPhase} {C : Type}

/-- What holds in every state of the phase. -/
structure Inv (P : ContractPhase) (stats : TokenStats) (s : PhaseA P.workers C) : Prop where
  /-- The threads are taken in order, each once. -/
  fetched : s.log.filterMap Event.fetchedTid = P.tidsVec.take s.nextTid
  /-- A worker leaves when all threads are taken. -/
  exhausted : ∀ i, s.worker i = .done → P.tidsVec.length ≤ s.nextTid
  /-- A worker that got past the lookup asks for its thread. -/
  asked : ∀ i tid, (s.worker i).askedTid = some tid → P.asksFor tid = true
  /-- So does the log. -/
  admits : ∀ e ∈ s.log, P.Admits e
  /-- No thread is lost. -/
  threads : threadFlow.Balanced s
  /-- No thread is shared. -/
  owners : ownFlow.Balanced s
  /-- No line is lost. -/
  lines : lineFlow.Balanced s
  /-- No response is lost. -/
  usages : usageFlow.Balanced s
  /-- No exception is lost. -/
  exceptions : throwFlow.Balanced s
  /-- No contract is lost. -/
  contracts : contractFlow.Balanced s
  /-- The mutex of the output does its work. -/
  output : s.output.Coherent (Worker.outputStage ∘ s.worker)
  /-- The mutex of the token counts does its work. -/
  tokenStats : s.tokenStats.Coherent (Worker.statsStage ∘ s.worker)
  /-- The mutex of the contracts does its work. -/
  contractsByTid : s.contractsByTid.Coherent (Worker.contractsStage ∘ s.worker)
  /-- The output has the lines that were printed, one after the other. -/
  output_store : s.output.store = s.log.filterMap Event.printedTid
  /-- The counts are those of the responses that were counted. -/
  tokenStats_store :
    s.tokenStats.store = (s.log.filterMap Event.countedUsage).foldl TokenStats.count stats
  /-- The map has the contracts that were stored. -/
  contractsByTid_store : s.contractsByTid.store =
    (s.log.filterMap Event.emplacedContract).foldl (fun m p => PhaseB.emplace m p.1 p.2) fun _ => none

variable {stats : TokenStats} {s s' : PhaseA P.workers C} {i : Fin P.workers}

/-- The invariant holds before the workers start. -/
theorem inv_start : Inv P stats (P.start (C := C) stats) where
  fetched := rfl
  exhausted := nofun
  asked := nofun
  admits := nofun
  threads := by simp [Flow.Balanced, start, threadFlow]
  owners := by simp [Flow.Balanced, start, ownFlow, Worker.ownTid]
  lines := by simp [Flow.Balanced, start, lineFlow]
  usages := by simp [Flow.Balanced, start, usageFlow]
  exceptions := by simp [Flow.Balanced, start, throwFlow]
  contracts := by simp [Flow.Balanced, start, contractFlow]
  output := Guarded.coherent_of_none rfl fun _ => rfl
  tokenStats := Guarded.coherent_of_none rfl fun _ => rfl
  contractsByTid := Guarded.coherent_of_none rfl fun _ => rfl
  output_store := rfl
  tokenStats_store := rfl
  contractsByTid_store := rfl

/-- A step keeps the balance of a flow that turns conserve. -/
theorem Step.balanced {α : Type} {F : Flow C α} (h : P.Step s i s') (hF : F.Conserves P)
    (hs : F.Balanced s) : F.Balanced s' := by
  obtain ⟨w, events, hturn, hworker, hlog⟩ := h.exists_turn
  exact hs.turn (hF _ _ _ hturn) hworker hlog

/-- A move outside the sections of a mutex does not concern it. -/
theorem coherent_move {σ : Type} {g : Guarded (Fin P.workers) σ} {stage : Worker C → Option (Stage σ)}
    {w : Worker C} (h : g.Coherent (stage ∘ s.worker)) (hsame : stage w = stage (s.worker i)) :
    g.Coherent (stage ∘ Function.update s.worker i w) := by
  rw [Function.comp_update, hsame, Function.update_eq_self_iff.mpr (by rfl)]
  exact h

/-- The threads are fetched in their order, each once. -/
theorem Step.fetched (h : P.Step s i s')
    (hs : s.log.filterMap Event.fetchedTid = P.tidsVec.take s.nextTid) :
    s'.log.filterMap Event.fetchedTid = P.tidsVec.take s'.nextTid := by
  cases h with
  | fetch hw htid => simp [PhaseA.move, hs, Event.fetchedTid, List.take_add_one, htid]
  | leave hw hend =>
    have hlen := List.getElem?_eq_none_iff.mp hend
    rw [PhaseA.move, List.append_nil, hs, List.take_of_length_le hlen,
      List.take_of_length_le (hlen.trans (Nat.le_succ _))]
  | _ => simp [PhaseA.move, hs, Event.fetchedTid, committed, apply_ite]

/-- A worker is done only when no thread is left. -/
theorem Step.exhausted (h : P.Step s i s')
    (hs : ∀ j, s.worker j = .done → P.tidsVec.length ≤ s.nextTid) (j : Fin P.workers)
    (hj : s'.worker j = .done) : P.tidsVec.length ≤ s'.nextTid := by
  cases h with
  | leave hw hend => exact (List.getElem?_eq_none_iff.mp hend).trans (Nat.le_succ _)
  | fetch hw htid =>
    rcases eq_or_ne j i with rfl | hne
    · simp [PhaseA.move] at hj
    · refine (hs j ?_).trans (Nat.le_succ _)
      simpa [PhaseA.move, hne] using hj
  | _ =>
    rcases eq_or_ne j i with rfl | hne
    · simp [PhaseA.move] at hj
    · exact hs j (by simpa [PhaseA.move, hne] using hj)

/-- A worker asks only for threads that need a contract. -/
theorem Step.asked (h : P.Step s i s')
    (hs : ∀ j tid, (s.worker j).askedTid = some tid → P.asksFor tid = true) (j : Fin P.workers)
    (tid : Tid) (hj : (s'.worker j).askedTid = some tid) : P.asksFor tid = true := by
  obtain ⟨w, events, hturn, hworker, -⟩ := h.exists_turn
  rw [hworker] at hj
  rcases eq_or_ne j i with rfl | hne
  · rw [Function.update_self] at hj
    generalize hold : s.worker j = old at hturn
    have hasks := hs j
    rw [hold] at hasks
    cases hturn with
    | announce hasks' =>
      cases hj
      exact hasks'
    | print | printed | respond | count | counted => exact hasks tid hj
    | _ => cases hj
  · exact hs j tid (by rwa [Function.update_of_ne hne] at hj)

/-- Events are only about threads that need them. -/
theorem Step.admits (h : P.Step s i s')
    (hasked : ∀ j tid, (s.worker j).askedTid = some tid → P.asksFor tid = true)
    (hs : ∀ e ∈ s.log, P.Admits e) : ∀ e ∈ s'.log, P.Admits e := by
  obtain ⟨w, events, hturn, -, hlog⟩ := h.exists_turn
  rw [hlog]
  intro e he
  rcases List.mem_append.mp he with he | he
  · exact hs e he
  have hasks := hasked i
  -- What the turn logs depends on what the worker was doing.
  generalize s.worker i = old at hturn hasks
  cases hturn with
  | skip hno =>
    rw [List.mem_singleton.mp he]
    exact hno
  | print =>
    rw [committed] at he
    split_ifs at he
    · rw [List.mem_singleton.mp he]
      exact hasks _ rfl
    · cases he
  | fail | generate | throws | countThrows =>
    rw [List.mem_singleton.mp he]
    exact hasks _ rfl
  | count | emplace =>
    rw [committed] at he
    split_ifs at he
    · rw [List.mem_singleton.mp he]
      trivial
    · cases he
  | fetch | respond =>
    rw [List.mem_singleton.mp he]
    trivial
  | _ => cases he

/-! ### The three mutexes -/

/-- What is read of one event. -/
theorem filterMap_singleton {α : Type} (f : Event C → Option α) (e : Event C) :
    [e].filterMap f = (f e).toList := by
  rw [List.filterMap_cons]
  cases f e <;> rfl

/-- What is read of an event that counts once its write is stored. -/
theorem filterMap_committed {σ α : Type} {f : Event C → Option α} {st : Stage σ} {e : Event C} :
    (committed st e).filterMap f = if st.isStored then (f e).toList else [] := by
  rw [committed]
  split_ifs
  · exact filterMap_singleton f e
  · rfl

/-- The mutex of the output stays coherent with what the workers hold. -/
theorem Step.output (h : P.Step s i s') (hs : s.output.Coherent (Worker.outputStage ∘ s.worker)) :
    s'.output.Coherent (Worker.outputStage ∘ s'.worker) := by
  cases h with
  | announce hw hasks =>
    simp only [PhaseA.move, Function.comp_update]
    exact hs.wait (by simp [hw, Worker.outputStage])
  | print hw hst hstep =>
    simp only [PhaseA.move, Function.comp_update]
    exact hs.step (by simp [hw, Worker.outputStage]) hstep
  | printed hw =>
    simp only [PhaseA.move, Function.comp_update]
    exact hs.leave (by simp [hw, Worker.outputStage])
  | fetch hw | leave hw | skip hw | respond hw | count hw | counted hw | countThrows hw | throws hw
  | fail hw | generate hw | emplace hw | emplaced hw => exact coherent_move hs (by rw [hw]; rfl)

/-- So does the one of the statistics. -/
theorem Step.tokenStats (h : P.Step s i s')
    (hs : s.tokenStats.Coherent (Worker.statsStage ∘ s.worker)) :
    s'.tokenStats.Coherent (Worker.statsStage ∘ s'.worker) := by
  cases h with
  | respond hw =>
    simp only [PhaseA.move, Function.comp_update]
    exact hs.wait (by simp [hw, Worker.statsStage])
  | count hw hst hstep =>
    simp only [PhaseA.move, Function.comp_update]
    exact hs.step (by simp [hw, Worker.statsStage]) hstep
  | counted hw | countThrows hw =>
    -- An exception passes through the guard as well.
    simp only [PhaseA.move, Function.comp_update]
    exact hs.leave (by simp [hw, Worker.statsStage])
  | fetch hw | leave hw | announce hw | skip hw | print hw | printed hw | throws hw | fail hw
  | generate hw | emplace hw | emplaced hw => exact coherent_move hs (by rw [hw]; rfl)

/-- And the one of the contracts. -/
theorem Step.contractsByTid (h : P.Step s i s')
    (hs : s.contractsByTid.Coherent (Worker.contractsStage ∘ s.worker)) :
    s'.contractsByTid.Coherent (Worker.contractsStage ∘ s'.worker) := by
  cases h with
  | generate hw =>
    simp only [PhaseA.move, Function.comp_update]
    exact hs.wait (by simp [hw, Worker.contractsStage])
  | emplace hw hst hstep =>
    simp only [PhaseA.move, Function.comp_update]
    exact hs.step (by simp [hw, Worker.contractsStage]) hstep
  | emplaced hw =>
    simp only [PhaseA.move, Function.comp_update]
    exact hs.leave (by simp [hw, Worker.contractsStage])
  | fetch hw | leave hw | announce hw | skip hw | print hw | printed hw | respond hw | count hw
  | counted hw | countThrows hw | throws hw | fail hw => exact coherent_move hs (by rw [hw]; rfl)

/-- The output is what was printed, in that order. -/
theorem Step.output_store (h : P.Step s i s')
    (hcoherent : s.output.Coherent (Worker.outputStage ∘ s.worker))
    (hs : s.output.store = s.log.filterMap Event.printedTid) :
    s'.output.store = s'.log.filterMap Event.printedTid := by
  cases h with
  | print hw hst hstep =>
    have hstore := hcoherent.store_eq (by simp [hw, Worker.outputStage]) hstep
    simp only [PhaseA.move, hstore, List.filterMap_append, filterMap_committed, hs]
    split_ifs
    · rfl
    · exact (List.append_nil _).symm
  | count | emplace => simp [PhaseA.move, hs, filterMap_committed, Event.printedTid]
  | _ => simp [PhaseA.move, hs, filterMap_singleton, Event.printedTid, Guarded.unlock]

/-- The statistics are the sum of what was counted. -/
theorem Step.tokenStats_store (h : P.Step s i s')
    (hcoherent : s.tokenStats.Coherent (Worker.statsStage ∘ s.worker))
    (hs : s.tokenStats.store = (s.log.filterMap Event.countedUsage).foldl TokenStats.count stats) :
    s'.tokenStats.store =
      (s'.log.filterMap Event.countedUsage).foldl TokenStats.count stats := by
  cases h with
  | count hw hst hstep =>
    have hstore := hcoherent.store_eq (by simp [hw, Worker.statsStage]) hstep
    simp only [PhaseA.move, hstore, List.filterMap_append, List.foldl_append, filterMap_committed,
      ← hs]
    split_ifs <;> rfl
  | print | emplace => simp [PhaseA.move, hs, filterMap_committed, Event.countedUsage]
  | _ => simp [PhaseA.move, hs, filterMap_singleton, Event.countedUsage, Guarded.unlock]

/-- The contracts are those that were stored, the first one for each thread. -/
theorem Step.contractsByTid_store (h : P.Step s i s')
    (hcoherent : s.contractsByTid.Coherent (Worker.contractsStage ∘ s.worker))
    (hs : s.contractsByTid.store = (s.log.filterMap Event.emplacedContract).foldl
      (fun m p => PhaseB.emplace m p.1 p.2) fun _ => none) :
    s'.contractsByTid.store = (s'.log.filterMap Event.emplacedContract).foldl
      (fun m p => PhaseB.emplace m p.1 p.2) fun _ => none := by
  cases h with
  | emplace hw hst hstep =>
    have hstore := hcoherent.store_eq (by simp [hw, Worker.contractsStage]) hstep
    simp only [PhaseA.move, hstore, List.filterMap_append, List.foldl_append, filterMap_committed,
      ← hs]
    split_ifs <;> rfl
  | print | count => simp [PhaseA.move, hs, filterMap_committed, Event.emplacedContract]
  | _ => simp [PhaseA.move, hs, filterMap_singleton, Event.emplacedContract, Guarded.unlock]

/-- A step keeps the invariant. -/
theorem Inv.step (hs : Inv P stats s) (h : P.Step s i s') : Inv P stats s' where
  fetched := h.fetched hs.fetched
  exhausted := h.exhausted hs.exhausted
  asked := h.asked hs.asked
  admits := h.admits hs.asked hs.admits
  threads := h.balanced (conserves_threadFlow P) hs.threads
  owners := h.balanced (conserves_ownFlow P) hs.owners
  lines := h.balanced (conserves_lineFlow P) hs.lines
  usages := h.balanced (conserves_usageFlow P) hs.usages
  exceptions := h.balanced (conserves_throwFlow P) hs.exceptions
  contracts := h.balanced (conserves_contractFlow P) hs.contracts
  output := h.output hs.output
  tokenStats := h.tokenStats hs.tokenStats
  contractsByTid := h.contractsByTid hs.contractsByTid
  output_store := h.output_store hs.output hs.output_store
  tokenStats_store := h.tokenStats_store hs.tokenStats hs.tokenStats_store
  contractsByTid_store := h.contractsByTid_store hs.contractsByTid hs.contractsByTid_store

/-- The invariant holds after every run. -/
theorem inv_of_run {inputs : List (Fin P.workers × Reply C)}
    (hrun : runInputs P.step (P.start stats) inputs = some s) : Inv P stats s :=
  inv_of_runInputs (fun _ _ _ hs hstep => hs.step (step_cases hstep)) inv_start hrun

/-! ### At every moment -/

/-- The sections of some workers exclude each other. -/
def Exclusive {σ : Type} (s : PhaseA P.workers C) (stage : Worker C → Option (Stage σ)) : Prop :=
  ∀ i j st st', stage (s.worker i) = some st → stage (s.worker j) = some st' → st.Inside →
    st'.Inside → i = j

/-- What holds at every moment. -/
structure Safe (P : ContractPhase) (s : PhaseA P.workers C) : Prop where
  /-- One worker prints at a time. -/
  output : Exclusive s Worker.outputStage
  /-- One worker counts at a time. -/
  tokenStats : Exclusive s Worker.statsStage
  /-- One worker stores at a time. -/
  contractsByTid : Exclusive s Worker.contractsStage
  /-- No thread has two workers. -/
  owners : ∀ i j tid, (s.worker i).ownTid = some tid → (s.worker j).ownTid = some tid → i = j
  /-- Some worker can go on until all have ended: an exception leaves no mutex behind. -/
  live : ¬s.AllStopped → ∃ i reply, (P.step s (i, reply)).isSome

/-- A worker in a section that it has left or can go on with can go on. -/
theorem isSome_step_printing {tid : Tid} {st : Stage (List Tid)} (hw : s.worker i = .printing tid st)
    (h : st.isStored = true ∨ (s.output.step i (· ++ [tid]) st).isSome) :
    (P.step s (i, .proceed)).isSome := by
  cases st with
  | stored => simp [ContractPhase.step, hw]
  | waiting | entered | loaded =>
    simpa [ContractPhase.step, hw, Stage.isStored] using h

/-- A worker that counts can go on, unless it has to wait for the mutex. -/
theorem isSome_step_counting {tid : Tid} {usage : Usage} {st : Stage TokenStats}
    (hw : s.worker i = .counting tid usage st)
    (h : st.isStored = true ∨ (s.tokenStats.step i (·.count usage) st).isSome) :
    (P.step s (i, .proceed)).isSome := by
  cases st with
  | stored =>
    simp only [ContractPhase.step, hw]
    split_ifs <;> rfl
  | waiting | entered | loaded =>
    simpa [ContractPhase.step, hw, Stage.isStored] using h

/-- A worker that stores can go on, unless it has to wait for the mutex. -/
theorem isSome_step_storing {tid : Tid} {c : C} {st : Stage (Tid → Option C)}
    (hw : s.worker i = .storing tid c st)
    (h : st.isStored = true ∨ (s.contractsByTid.step i (PhaseB.emplace · tid c) st).isSome) :
    (P.step s (i, .proceed)).isSome := by
  cases st with
  | stored => simp [ContractPhase.step, hw]
  | waiting | entered | loaded =>
    simpa [ContractPhase.step, hw, Stage.isStored] using h

/-- Some worker can go on until all have ended. -/
theorem Inv.live (hs : Inv P stats s) (hstopped : ¬s.AllStopped) :
    ∃ i reply, (P.step s (i, reply)).isSome := by
  rw [PhaseA.AllStopped] at hstopped
  push Not at hstopped
  obtain ⟨i, hi⟩ := hstopped
  cases hw : s.worker i with
  | fetching =>
    refine ⟨i, .proceed, ?_⟩
    simp only [ContractPhase.step, hw]
    split <;> rfl
  | resolving tid =>
    refine ⟨i, .proceed, ?_⟩
    simp only [ContractPhase.step, hw]
    split_ifs <;> rfl
  | generating tid => exact ⟨i, .contract none, by simp [ContractPhase.step, hw]⟩
  | done => exact absurd (Worker.isStopped_iff.mpr (Or.inl hw)) hi
  | failed tid => exact absurd (Worker.isStopped_iff.mpr (Or.inr ⟨tid, hw⟩)) hi
  | printing tid st =>
    rcases hs.output.progress i (· ++ [tid]) st with h | ⟨j, st', hj, h⟩
    · exact ⟨i, .proceed, isSome_step_printing hw h⟩
    · -- The mutex is taken; its holder can go on.
      cases hwj : s.worker j with
      | printing tid' st'' =>
        obtain rfl : st'' = st' := by simpa [hwj, Worker.outputStage] using hj
        exact ⟨j, .proceed, isSome_step_printing hwj (h _)⟩
      | _ => simp [hwj, Worker.outputStage] at hj
  | counting tid usage st =>
    rcases hs.tokenStats.progress i (·.count usage) st with h | ⟨j, st', hj, h⟩
    · exact ⟨i, .proceed, isSome_step_counting hw h⟩
    · cases hwj : s.worker j with
      | counting tid' usage' st'' =>
        obtain rfl : st'' = st' := by simpa [hwj, Worker.statsStage] using hj
        exact ⟨j, .proceed, isSome_step_counting hwj (h _)⟩
      | _ => simp [hwj, Worker.statsStage] at hj
  | storing tid c st =>
    rcases hs.contractsByTid.progress i (PhaseB.emplace · tid c) st with h | ⟨j, st', hj, h⟩
    · exact ⟨i, .proceed, isSome_step_storing hw h⟩
    · cases hwj : s.worker j with
      | storing tid' c' st'' =>
        obtain rfl : st'' = st' := by simpa [hwj, Worker.contractsStage] using hj
        exact ⟨j, .proceed, isSome_step_storing hwj (h _)⟩
      | _ => simp [hwj, Worker.contractsStage] at hj

/-- No thread is listed twice. -/
theorem nodup_tidsVec : P.tidsVec.Nodup := P.tidsInPlay.nodup

/-- At every moment of every run the workers exclude each other, no thread has two workers, and some
worker can go on until all have ended, whatever throws. -/
theorem safe_of_run {inputs : List (Fin P.workers × Reply C)}
    (hrun : runInputs P.step (P.start stats) inputs = some s) : Safe P s := by
  have hs := inv_of_run hrun
  refine ⟨?_, ?_, ?_, ?_, hs.live⟩
  · exact fun i j st st' hi hj hin hin' => hs.output.eq_of_inside hi hin hj hin'
  · exact fun i j st st' hi hj hin hin' => hs.tokenStats.eq_of_inside hi hin hj hin'
  · exact fun i j st st' hi hj hin hin' => hs.contractsByTid.eq_of_inside hi hin hj hin'
  · have hnodup : (s.log.filterMap Event.fetchedTid).Nodup := by
      rw [hs.fetched]
      exact nodup_tidsVec.sublist (List.take_sublist _ _)
    exact fun i j tid hi hj => hs.owners.eq_of_stock hnodup hi hj

/-! ### When all workers have ended -/

/-- What holds when all workers have ended. -/
structure Joined (P : ContractPhase) (stats : TokenStats) (s : PhaseA P.workers C) : Prop where
  /-- The threads of the budget are taken in order. -/
  taken : s.log.filterMap Event.fetchedTid = P.tidsVec.take s.nextTid
  /-- All of them are taken, unless every worker has thrown. -/
  complete : (∃ i, s.worker i = .done) ∨ P.workers = 0 →
    s.log.filterMap Event.fetchedTid = P.tidsVec
  /-- A contract is asked for once for each taken thread that touches something. -/
  asked : (s.log.filterMap Event.askedTid).Perm
    ((s.log.filterMap Event.fetchedTid).filter P.asksFor)
  /-- If the join returns, then for each thread of the budget that touches something. -/
  generated : s.AllDone →
    (s.log.filterMap Event.generatedTid).Perm (P.tidsVec.filter P.asksFor)
  /-- The requests that threw have each ended a worker. -/
  threw : ∀ tid, Event.threw tid ∈ s.log ↔ ∃ i, s.worker i = .failed tid
  /-- The map has the contracts that the generations ended with, and no others. -/
  contractsByTid : ∀ tid c, s.contractsByTid.store tid = some c ↔
    Event.generated tid (some c) ∈ s.log
  /-- Every response is counted once. -/
  tokenStats : s.tokenStats.store =
    (s.log.filterMap Event.respondedUsage).foldl TokenStats.count stats
  /-- The line of each of these threads is printed once. -/
  output : s.output.store.Perm ((s.log.filterMap Event.fetchedTid).filter P.asksFor)

/-- A worker that has left its loop has found all threads taken. -/
theorem Inv.fetched_eq (hs : Inv P stats s) (h : (∃ i, s.worker i = .done) ∨ P.workers = 0) :
    s.log.filterMap Event.fetchedTid = P.tidsVec := by
  rw [hs.fetched, List.take_of_length_le]
  rcases h with ⟨i, hi⟩ | hzero
  · exact hs.exhausted i hi
  · -- There is no worker only if there is no thread.
    have hone : 1 ≤ contractParallelism P.parallelismVar := le_max_left _ _
    rw [workers] at hzero
    omega

/-- A join that returns has found some worker done, or there was none. -/
theorem exists_done (hdone : s.AllDone) : (∃ i, s.worker i = .done) ∨ P.workers = 0 := by
  rcases Nat.eq_zero_or_pos P.workers with hzero | hpos
  · exact Or.inr hzero
  · exact Or.inl ⟨⟨0, hpos⟩, Worker.isDone_iff.mp (hdone ⟨0, hpos⟩)⟩

/-- Workers that have ended hold nothing in a flow that keeps nothing with them. -/
theorem stock_eq_none {α : Type} {F : Flow C α} (hdone : F.stock .done = none)
    (hfailed : ∀ tid, F.stock (.failed tid) = none) (hstopped : s.AllStopped)
    (i : Fin P.workers) : F.stock (s.worker i) = none := by
  rcases Worker.isStopped_iff.mp (hstopped i) with h | ⟨tid, h⟩
  · rw [h, hdone]
  · rw [h, hfailed]

/-- The exceptions are those that the workers have ended with. -/
theorem Inv.threw_iff (hs : Inv P stats s) {tid : Tid} :
    Event.threw tid ∈ s.log ↔ ∃ i, s.worker i = .failed tid := by
  have hlog : Event.threw tid ∈ s.log ↔ tid ∈ s.log.filterMap Event.threwTid := by
    rw [List.mem_filterMap]
    constructor
    · exact fun h => ⟨_, h, rfl⟩
    · rintro ⟨e, he, heq⟩
      cases e with
      | threw tid' =>
        cases heq
        exact he
      | _ => cases heq
  have hbalance : (s.log.filterMap Event.threwTid : Multiset Tid) =
      ∑ j, ((throwFlow.stock (s.worker j)).toList : Multiset Tid) := by
    simpa [Flow.Balanced, throwFlow] using hs.exceptions
  rw [hlog, ← Multiset.mem_coe, hbalance, Multiset.mem_sum]
  constructor
  · rintro ⟨j, -, hj⟩
    cases hw : s.worker j with
    | failed tid' =>
      obtain rfl : tid = tid' := by simpa [throwFlow, hw] using hj
      exact ⟨j, hw⟩
    | _ => simp [throwFlow, hw] at hj
  · rintro ⟨j, hj⟩
    exact ⟨j, Finset.mem_univ j, by simp [throwFlow, hj]⟩

/-- Of the settled threads those that are asked for are the ones a contract was asked for. -/
theorem filterMap_askedTid {log : List (Event C)} (h : ∀ e ∈ log, P.Admits e) :
    log.filterMap Event.askedTid = (log.filterMap Event.settledTid).filter P.asksFor := by
  induction log with
  | nil => rfl
  | cons e log ih =>
    obtain ⟨he, hlog⟩ := List.forall_mem_cons.mp h
    cases e with
    | skipped tid =>
      have hno : P.asksFor tid = false := he
      simp [List.filterMap_cons, Event.askedTid, Event.settledTid, hno, ih hlog]
    | generated tid result =>
      have hasks : P.asksFor tid = true := he
      simp [Event.askedTid, Event.settledTid, hasks, ih hlog]
    | threw tid =>
      have hasks : P.asksFor tid = true := he
      simp [Event.askedTid, Event.settledTid, hasks, ih hlog]
    | _ => simp [List.filterMap_cons, Event.askedTid, Event.settledTid, ih hlog]

/-- Of the announced threads those that are asked for are the printed ones. -/
theorem filterMap_printedTid {log : List (Event C)} (h : ∀ e ∈ log, P.Admits e) :
    log.filterMap Event.printedTid = (log.filterMap Event.announcedTid).filter P.asksFor := by
  induction log with
  | nil => rfl
  | cons e log ih =>
    obtain ⟨he, hlog⟩ := List.forall_mem_cons.mp h
    cases e with
    | skipped tid =>
      have hno : P.asksFor tid = false := he
      simp [List.filterMap_cons, Event.printedTid, Event.announcedTid, hno, ih hlog]
    | printed tid =>
      have hasks : P.asksFor tid = true := he
      simp [Event.printedTid, Event.announcedTid, hasks, ih hlog]
    | _ => simp [List.filterMap_cons, Event.printedTid, Event.announcedTid, ih hlog]

/-- Without an exception the requests are the generations. -/
theorem filterMap_generatedTid {log : List (Event C)} (h : ∀ tid, Event.threw tid ∉ log) :
    log.filterMap Event.generatedTid = log.filterMap Event.askedTid := by
  refine List.filterMap_congr fun e he => ?_
  cases e with
  | threw tid => exact absurd he (h tid)
  | _ => rfl

/-- The generation of a contract is logged under its thread. -/
theorem mem_filterMap_generatedContract {log : List (Event C)} {tid : Tid} {c : C} :
    (tid, c) ∈ log.filterMap Event.generatedContract ↔ Event.generated tid (some c) ∈ log := by
  rw [List.mem_filterMap]
  constructor
  · rintro ⟨e, he, heq⟩
    cases e with
    | generated tid' result =>
      cases result with
      | none => cases heq
      | some c' =>
        cases heq
        exact he
    | _ => cases heq
  · exact fun h => ⟨_, h, rfl⟩

/-- The threads of the contracts are threads that were asked about. -/
theorem map_fst_generatedContract_sublist (log : List (Event C)) :
    ((log.filterMap Event.generatedContract).map Prod.fst).Sublist
      (log.filterMap Event.askedTid) := by
  induction log with
  | nil => exact List.Sublist.refl _
  | cons e log ih =>
    cases e with
    | generated tid result =>
      cases result with
      | none =>
        simp only [List.filterMap_cons, Event.generatedContract, Event.askedTid]
        exact ih.cons tid
      | some c => simpa [List.filterMap_cons, Event.generatedContract, Event.askedTid] using ih
    | threw tid =>
      simp only [List.filterMap_cons, Event.generatedContract, Event.askedTid]
      exact ih.cons tid
    | _ => simpa [List.filterMap_cons, Event.generatedContract, Event.askedTid] using ih

/-- The map after contracts of different threads has exactly these. -/
theorem foldl_emplace_eq_some_iff {entries : List (Tid × C)} {m : Tid → Option C} {tid : Tid} {c : C}
    (hnodup : (entries.map Prod.fst).Nodup) (hnew : ∀ p ∈ entries, m p.1 = none) :
    entries.foldl (fun m p => PhaseB.emplace m p.1 p.2) m tid = some c ↔
      m tid = some c ∨ (tid, c) ∈ entries := by
  induction entries generalizing m with
  | nil => simp
  | cons p entries ih =>
    obtain ⟨hp, hnodup⟩ := List.nodup_cons.mp (by simpa only [List.map_cons] using hnodup)
    obtain ⟨hfree, hnew⟩ := List.forall_mem_cons.mp hnew
    have hstore : PhaseB.emplace m p.1 p.2 = Function.update m p.1 (some p.2) := by
      simp [PhaseB.emplace, hfree]
    rw [List.foldl_cons, hstore, ih hnodup]
    · rcases eq_or_ne tid p.1 with rfl | hne
      · simp [hfree, Prod.ext_iff, eq_comm]
      · simp [hne, Prod.ext_iff]
    · -- No later contract is for the thread that was just stored.
      intro q hq
      rw [Function.update_of_ne]
      · exact hnew q hq
      · exact fun heq => hp (heq ▸ List.mem_map_of_mem hq)

/-- The order in which responses are counted does not matter. -/
theorem foldl_count_perm {l l' : List Usage} (h : l.Perm l') (stats : TokenStats) :
    l.foldl TokenStats.count stats = l'.foldl TokenStats.count stats :=
  h.foldl_eq' (fun u _ v _ stats => by simp [TokenStats.count, Nat.add_right_comm]) stats

/-- When all workers have ended, each taken thread that touches something was asked about once. -/
theorem asked_perm_of_run {stats : TokenStats} {inputs : List (Fin P.workers × Reply C)}
    (hrun : runInputs P.step (P.start stats) inputs = some s) (hstopped : s.AllStopped) :
    (s.log.filterMap Event.askedTid).Perm
      ((s.log.filterMap Event.fetchedTid).filter P.asksFor) := by
  have hs := inv_of_run hrun
  rw [filterMap_askedTid hs.admits]
  exact (hs.threads.perm (stock_eq_none rfl (fun _ => rfl) hstopped)).symm.filter _

/-- After a join that returns, each thread that touches something was asked about once. -/
theorem generated_perm_of_run {stats : TokenStats} {inputs : List (Fin P.workers × Reply C)}
    (hrun : runInputs P.step (P.start stats) inputs = some s) (hdone : s.AllDone) :
    (s.log.filterMap Event.generatedTid).Perm (P.tidsVec.filter P.asksFor) := by
  have hs := inv_of_run hrun
  have hnone : ∀ tid, Event.threw tid ∉ s.log := by
    intro tid h
    obtain ⟨i, hi⟩ := hs.threw_iff.mp h
    have hdone' := hdone i
    rw [hi] at hdone'
    cases hdone'
  rw [filterMap_generatedTid hnone, ← hs.fetched_eq (exists_done hdone)]
  exact asked_perm_of_run hrun hdone.allStopped

/-- Two threads that share an object. -/
def twoThreads : ContractPhase where
  surface :=
    { sharedObjects := [plainObject ⟨[1, 2], TidSet.sorted_one_two⟩ false 3]
      totalThreadCount := 2
      conflictingPairCount := 1 }
  objKeep := [0]
  threadById tid := if tid = 1 then some 0 else if tid = 2 then some 1 else none
  tidsInPlay := ⟨[1, 2], TidSet.sorted_one_two⟩
  parallelismVar := none

/-- The first worker. -/
def workerA : Fin twoThreads.workers := ⟨0, by decide⟩

/-- The second worker. -/
def workerB : Fin twoThreads.workers := ⟨1, by decide⟩

/-- Both workers take a thread and want to print; the first one is inside. -/
def printRun : List (Fin twoThreads.workers × Reply String) :=
  [(workerA, .proceed), (workerB, .proceed), (workerB, .proceed), (workerA, .proceed),
    (workerA, .proceed)]

/-- Both go on; the second one reads the counts as soon as the first one has written them, and
throws on the second count of its response. The first one stores a contract and leaves. -/
def joinRun : List (Fin twoThreads.workers × Reply String) :=
  printRun ++ [(workerA, .proceed), (workerA, .proceed), (workerA, .proceed),
    (workerB, .proceed), (workerB, .proceed), (workerA, .chat ⟨.number 7, .number 2⟩),
    (workerB, .proceed), (workerB, .proceed), (workerB, .chat ⟨.number 5, .other⟩),
    (workerA, .proceed), (workerA, .proceed), (workerA, .proceed), (workerA, .proceed),
    (workerB, .proceed), (workerB, .proceed), (workerB, .proceed), (workerB, .proceed),
    (workerA, .contract (some "reader")), (workerA, .proceed), (workerA, .proceed),
    (workerA, .proceed), (workerA, .proceed), (workerA, .proceed)]

/-- The second worker waits while the first one prints. -/
theorem printRun_safe : ∃ s, runInputs twoThreads.step (twoThreads.start {}) printRun = some s ∧
    (twoThreads.step s (workerB, .proceed)).isNone ∧ twoThreads.Safe s := by
  have hrun : (runInputs twoThreads.step (twoThreads.start {}) printRun).any
      (fun s => (twoThreads.step s (workerB, .proceed)).isNone) = true := by decide +kernel
  obtain ⟨s, hs, hwait⟩ := (Option.any_eq_true ..).mp hrun
  exact ⟨s, hs, hwait, safe_of_run hs⟩

end ContractPhase

end Lace.PhaseB
