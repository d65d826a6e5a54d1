import Mathlib.Algebra.BigOperators.Group.Finset.Basic
import Mathlib.Algebra.Order.BigOperators.Group.Finset
import Mathlib.Data.List.Sort
import Mathlib.Logic.Relation
import Lace.CCPG.Basic

/-!
# Calling contexts

The function queue of `CCPG::build`. Every function that is taken off the queue for the first time
resolves its calls and forks; the callee is queued and gets the caller's contexts, each extended by
the call site. Contexts arise in no other way, and the entry functions are queued without one.

How a site is resolved is a parameter.

## Main definitions

* `CallStructure`: the entry functions, the sites and what they are resolved to;
* `CallStructure.build`: the queue;
* `CallStructure.CallChain`: the call chains from an entry;
* `CallStructure.ContextsComplete`: the contexts of all chains are there.

## Main results

* `build_queue`: the queue is drained;
* `contexts_build`: no function has a context;
* `contextsComplete_iff`: the contexts are complete only where nothing is called.
-/

namespace Lace

/-- A `ccpg::Function`, named by a number. -/
abbrev FuncId := ℕ

/-- `Context`: the call stack, the outermost site first. -/
abbrev Context := List NodeId

/-- What `CCPG::build` works on once the entry functions are known. -/
structure CallStructure where
  /-- The entry functions, in the order in which they are queued. -/
  entries : List FuncId
  /-- `getNodesByType(OBJECT_INIT)`, in iteration order. -/
  objectInits : FuncId → List NodeId
  /-- `getNodesByType(OTHER_CALL)`, in iteration order. -/
  otherCalls : FuncId → List NodeId
  /-- `getNodesByType(FORK)`, in iteration order. -/
  forks : FuncId → List NodeId
  /-- The function of `findCalleeByCaller`. -/
  findCallee : NodeId → Option FuncId
  /-- The function of `findThreadEntryInCPG`. -/
  findThreadEntry : NodeId → Option FuncId
  /-- The functions of the program. -/
  functions : Finset FuncId
  /-- The entry functions are functions of the program. -/
  entries_mem : ∀ f ∈ entries, f ∈ functions
  /-- So are the callees. -/
  callee_mem : ∀ site f, findCallee site = some f → f ∈ functions
  /-- So are the start routines. -/
  threadEntry_mem : ∀ site f, findThreadEntry site = some f → f ∈ functions

/-- The state of `CCPG::build`. -/
structure BuildState where
  /-- `functionQueue`. -/
  queue : List FuncId
  /-- `visited`. -/
  visited : List FuncId
  /-- The `CALL` edges, from a site to a function node. -/
  callEdges : List (NodeId × FuncId)
  /-- The `HB` edges. -/
  hbEdges : List (NodeId × FuncId)
  /-- `contextSet` of every function. -/
  contexts : FuncId → List Context

/-- `handleContext`: the contexts of the caller's function that do not use the site, extended
by it. -/
def handleContext (callerFn : FuncId) (caller : NodeId) (f : FuncId)
    (contexts : FuncId → List Context) : FuncId → List Context :=
  Function.update contexts f (contexts f ++
    ((contexts callerFn).filter fun ctx => caller ∉ ctx).map fun ctx => ctx ++ [caller])

namespace CallStructure

variable (C : CallStructure)

/-- One call site: it is skipped when it has a call edge or its callee is not found. -/
def processCall (fn : FuncId) (s : BuildState) (site : NodeId) : BuildState :=
  if s.callEdges.any fun e => e.1 = site then s
  else
    match C.findCallee site with
    | none => s
    | some f =>
        { s with
          callEdges := s.callEdges ++ [(site, f)]
          contexts := handleContext fn site f s.contexts
          queue := s.queue ++ [f] }

/-- One fork site. -/
def processFork (fn : FuncId) (s : BuildState) (site : NodeId) : BuildState :=
  match C.findThreadEntry site with
  | none => s
  | some f =>
      { s with
        hbEdges := s.hbEdges ++ [(site, f)]
        contexts := handleContext fn site f s.contexts
        queue := s.queue ++ [f] }

/-- A function that is visited for the first time. -/
def processFunction (fn : FuncId) (s : BuildState) : BuildState :=
  let s := { s with visited := fn :: s.visited }
  let s := (C.objectInits fn).foldl (C.processCall fn) s
  let s := (C.otherCalls fn).foldl (C.processCall fn) s
  (C.forks fn).foldl (C.processFork fn) s

/-- The queue loop. -/
def loop : ℕ → BuildState → BuildState
  | 0, s => s
  | fuel + 1, s =>
      match s.queue with
      | [] => s
      | fn :: queue =>
          let s := { s with queue := queue }
          loop fuel (if fn ∈ s.visited then s else C.processFunction fn s)

/-- The sites of a function. -/
def sites (f : FuncId) : List NodeId := C.objectInits f ++ C.otherCalls f ++ C.forks f

/-- The state in which the queue loop begins. -/
def start : BuildState where
  queue := C.entries
  visited := []
  callEdges := []
  hbEdges := []
  contexts _ := []

/-- `CCPG::build`, from the queue of entry functions on. Every function is processed once, which
bounds the loop. -/
def build : BuildState :=
  C.loop (C.entries.length + ∑ f ∈ C.functions, (C.sites f).length + 1) C.start

/-! ### Call chains -/

/-- A call or fork of function `f` at a site, resolved to `g`. -/
def CallStep (f : FuncId) (site : NodeId) (g : FuncId) : Prop :=
  site ∈ C.objectInits f ++ C.otherCalls f ∧ C.findCallee site = some g ∨
    site ∈ C.forks f ∧ C.findThreadEntry site = some g

/-- The call and fork sites of a chain from an entry to a function, none of them used twice. -/
inductive CallChain : Context → FuncId → Prop
  | entry {f : FuncId} : f ∈ C.entries → CallChain [] f
  | step {ctx : Context} {f g : FuncId} {site : NodeId} : CallChain ctx f → C.CallStep f site g →
      site ∉ ctx → CallChain (ctx ++ [site]) g

/-- Every function has the contexts of its call chains. -/
structure ContextsComplete (s : BuildState) : Prop where
  /-- The context of every chain is there. -/
  chain : ∀ ctx f, C.CallChain ctx f → ctx ≠ [] → ctx ∈ s.contexts f
  /-- A function that was reached from an entry has a context. -/
  reached : ∀ f ∈ s.visited, f ∉ C.entries → s.contexts f ≠ []

/-! ### Lockset queries -/

/-- `LSAnalysis::getLockSet` of a node in a context: the locks of the node and of all sites of the
call stack, in the order of their addresses and each once. -/
def getLockSet (lockAddr : ℕ → ℕ) (nodeLockSets : NodeId → List ℕ) (node : NodeId)
    (ctx : Context) : List ℕ :=
  (ctx.flatMap nodeLockSets ++ nodeLockSets node).dedup.insertionSort fun i j =>
    lockAddr i ≤ lockAddr j

/-- `allLocksetsFor`: the locksets of a node in all contexts of its function. -/
def allLocksetsFor (lockAddr : ℕ → ℕ) (nodeLockSets : NodeId → List ℕ) (node : NodeId)
    (ctxs : List Context) : List (List ℕ) :=
  if ctxs.isEmpty then [getLockSet lockAddr nodeLockSets node []]
  else ctxs.map (getLockSet lockAddr nodeLockSets node)

/-! ### One function -/

variable {C} {fn : FuncId} {s : BuildState}

/-- What the sites of `fn` do to the state: it stays without contexts if it has none, and what is
queued was called by `fn`. -/
structure Grows (C : CallStructure) (fn : FuncId) (k : ℕ) (s s' : BuildState) : Prop where
  visited_eq : s'.visited = s.visited
  queue_eq : ∃ new : List FuncId, s'.queue = s.queue ++ new ∧ new.length ≤ k ∧
    ∀ f ∈ new, f ∈ C.functions ∧ ∃ site, C.CallStep fn site f
  contexts_eq : (∀ f, s.contexts f = []) → ∀ f, s'.contexts f = []

namespace Grows

variable {k l : ℕ} {s' s'' : BuildState}

theorem refl (s : BuildState) : C.Grows fn 0 s s :=
  ⟨rfl, ⟨[], by simp⟩, fun h => h⟩

theorem trans (h : C.Grows fn k s s') (h' : C.Grows fn l s' s'') : C.Grows fn (k + l) s s'' := by
  obtain ⟨new, hnew, hlen, hall⟩ := h.queue_eq
  obtain ⟨new', hnew', hlen', hall'⟩ := h'.queue_eq
  refine ⟨h'.visited_eq.trans h.visited_eq, ⟨new ++ new', ?_, ?_, ?_⟩, fun hs =>
    h'.contexts_eq (h.contexts_eq hs)⟩
  · rw [hnew', hnew, List.append_assoc]
  · rw [List.length_append]
    exact Nat.add_le_add hlen hlen'
  · intro f hf
    exact (List.mem_append.mp hf).elim (hall f) (hall' f)

theorem mono (h : C.Grows fn k s s') (hkl : k ≤ l) : C.Grows fn l s s' := by
  obtain ⟨new, hnew, hlen, hall⟩ := h.queue_eq
  exact ⟨h.visited_eq, ⟨new, hnew, hlen.trans hkl, hall⟩, h.contexts_eq⟩

/-- Without contexts there is nothing to extend. -/
theorem handleContext_eq {contexts : FuncId → List Context} {site : NodeId} {g : FuncId}
    (h : ∀ f, contexts f = []) (f : FuncId) : handleContext fn site g contexts f = [] := by
  unfold handleContext
  rw [h fn, h g]
  by_cases hf : f = g
  · simp [hf]
  · simp [hf, h f]

theorem processCall {site : NodeId} (hsite : site ∈ C.objectInits fn ++ C.otherCalls fn) :
    C.Grows fn 1 s (C.processCall fn s site) := by
  unfold CallStructure.processCall
  split_ifs
  · exact (refl s).mono (Nat.zero_le 1)
  cases hcallee : C.findCallee site with
  | none => exact (refl s).mono (Nat.zero_le 1)
  | some f =>
      refine ⟨rfl, ⟨[f], rfl, le_rfl, fun g hg => ?_⟩, handleContext_eq⟩
      obtain rfl := List.mem_singleton.mp hg
      exact ⟨C.callee_mem site g hcallee, site, Or.inl ⟨hsite, hcallee⟩⟩

theorem processFork {site : NodeId} (hsite : site ∈ C.forks fn) :
    C.Grows fn 1 s (C.processFork fn s site) := by
  unfold CallStructure.processFork
  cases hentry : C.findThreadEntry site with
  | none => exact (refl s).mono (Nat.zero_le 1)
  | some f =>
      refine ⟨rfl, ⟨[f], rfl, le_rfl, fun g hg => ?_⟩, handleContext_eq⟩
      obtain rfl := List.mem_singleton.mp hg
      exact ⟨C.threadEntry_mem site g hentry, site, Or.inr ⟨hsite, hentry⟩⟩

theorem foldl {l : List NodeId} {step : BuildState → NodeId → BuildState}
    (hstep : ∀ s, ∀ site ∈ l, C.Grows fn 1 s (step s site)) (s : BuildState) :
    C.Grows fn l.length s (l.foldl step s) := by
  induction l generalizing s with
  | nil => exact refl s
  | cons site l ih =>
      have htail := ih (fun s x hx => hstep s x (List.mem_cons_of_mem _ hx)) (step s site)
      rw [List.length_cons, Nat.add_comm]
      exact (hstep s site (by simp)).trans htail

/-- A function queues at most one function for each of its sites. -/
theorem processFunction : C.Grows fn (C.sites fn).length { s with visited := fn :: s.visited }
    (C.processFunction fn s) := by
  have hinits : ∀ s, C.Grows fn (C.objectInits fn).length s
      ((C.objectInits fn).foldl (C.processCall fn) s) :=
    foldl fun s site hsite => processCall (List.mem_append_left _ hsite)
  have hcalls : ∀ s, C.Grows fn (C.otherCalls fn).length s
      ((C.otherCalls fn).foldl (C.processCall fn) s) :=
    foldl fun s site hsite => processCall (List.mem_append_right _ hsite)
  have hforks : ∀ s, C.Grows fn (C.forks fn).length s
      ((C.forks fn).foldl (C.processFork fn) s) :=
    foldl fun s site hsite => processFork hsite
  rw [sites, List.length_append, List.length_append]
  exact ((hinits _).trans (hcalls _)).trans (hforks _)

end Grows

/-! ### The queue -/

/-- The function is an entry or is called from one, directly or not. -/
def Reached (C : CallStructure) (g : FuncId) : Prop :=
  ∃ f ∈ C.entries, Relation.ReflTransGen (fun f g => ∃ site, C.CallStep f site g) f g

/-- The invariant of the queue loop. -/
structure QueueInv (C : CallStructure) (s : BuildState) : Prop where
  queued : ∀ f ∈ s.queue, f ∈ C.functions ∧ C.Reached f
  visited : ∀ f ∈ s.visited, C.Reached f
  contexts : ∀ f, s.contexts f = []

/-- How much work is left: the queue, and the sites of the functions that are not visited. -/
def workLeft (C : CallStructure) (s : BuildState) : ℕ :=
  s.queue.length + ∑ f ∈ C.functions.filter (· ∉ s.visited), (C.sites f).length

theorem queueInv_start : C.QueueInv C.start where
  queued f hf := ⟨C.entries_mem f hf, f, hf, .refl⟩
  visited := by simp [start]
  contexts _ := rfl

/-- Visiting a function keeps the invariant and leaves less work. -/
theorem QueueInv.processFunction {queue : List FuncId} (hinv : C.QueueInv s)
    (hqueue : s.queue = fn :: queue) (hnew : fn ∉ s.visited) :
    C.QueueInv (C.processFunction fn { s with queue := queue }) ∧
      C.workLeft (C.processFunction fn { s with queue := queue }) < C.workLeft s := by
  obtain ⟨hfn, hreached⟩ := hinv.queued fn (by simp [hqueue])
  -- The visit marks the function alone and puts functions that it calls into the queue.
  have hgrows := @Grows.processFunction C fn { s with queue := queue }
  obtain ⟨new, hnewq, hlen, hall⟩ := hgrows.queue_eq
  have hvis := hgrows.visited_eq
  constructor
  · refine ⟨fun f hf => ?_, fun f hf => ?_, hgrows.contexts_eq hinv.contexts⟩
    · -- What is queued was queued before, or is called by the function that is visited.
      rw [hnewq] at hf
      rcases List.mem_append.mp hf with hf | hf
      · exact hinv.queued f (by rw [hqueue]; exact List.mem_cons_of_mem _ hf)
      · obtain ⟨hmem, hstep⟩ := hall f hf
        obtain ⟨e, he, hsteps⟩ := hreached
        exact ⟨hmem, e, he, hsteps.tail hstep⟩
    · rw [hvis] at hf
      rcases List.mem_cons.mp hf with rfl | hf
      · exact hreached
      · exact hinv.visited f hf
  · -- The function is no longer left; it pays for its call sites.
    have hsplit : C.functions.filter (· ∉ s.visited) =
        insert fn (C.functions.filter (· ∉ fn :: s.visited)) := by
      ext f
      by_cases hf : f = fn
      · simp [hf, hfn, hnew]
      · simp [hf]
    unfold workLeft
    rw [hnewq, hvis, hqueue, hsplit, Finset.sum_insert (by simp), List.length_append,
      List.length_cons]
    show queue.length + new.length +
      ∑ f ∈ C.functions.filter (· ∉ fn :: s.visited), (C.sites f).length < _
    omega

/-- The loop keeps the invariant, and drains the queue when it has fuel for the work that is
left. -/
theorem QueueInv.loop (fuel : ℕ) (hinv : C.QueueInv s) (hfuel : C.workLeft s < fuel) :
    C.QueueInv (C.loop fuel s) ∧ (C.loop fuel s).queue = [] := by
  induction fuel generalizing s with
  | zero => exact absurd hfuel (Nat.not_lt_zero _)
  | succ fuel ih =>
      unfold CallStructure.loop
      cases hqueue : s.queue with
      | nil => exact ⟨hinv, hqueue⟩
      | cons fn queue =>
          by_cases hvis : fn ∈ s.visited
          · simp only [hvis, if_true]
            refine ih ⟨fun f hf => ?_, hinv.visited, hinv.contexts⟩ ?_
            · exact hinv.queued f (by rw [hqueue]; exact List.mem_cons_of_mem _ hf)
            · unfold workLeft at hfuel ⊢
              rw [hqueue, List.length_cons] at hfuel
              show queue.length + ∑ f ∈ C.functions.filter (· ∉ s.visited), (C.sites f).length < _
              omega
          · simp only [hvis, if_false]
            obtain ⟨hinv', hless⟩ := hinv.processFunction hqueue hvis
            exact ih hinv' (by omega)

theorem queueInv_build : C.QueueInv C.build ∧ C.build.queue = [] := by
  refine queueInv_start.loop _ ?_
  have hle : ∑ f ∈ C.functions.filter (· ∉ C.start.visited), (C.sites f).length ≤
      ∑ f ∈ C.functions, (C.sites f).length :=
    Finset.sum_le_sum_of_subset (Finset.filter_subset _ _)
  unfold workLeft
  show C.entries.length + _ < _
  omega

/-- The queue is drained. -/
theorem build_queue : C.build.queue = [] := queueInv_build.2

/-- No function has a context. -/
theorem contexts_build (f : FuncId) : C.build.contexts f = [] := queueInv_build.1.contexts f

/-- The contexts are complete exactly when no entry function has a call or fork that is
resolved. -/
theorem contextsComplete_iff (C : CallStructure) : C.ContextsComplete C.build ↔
    ∀ f ∈ C.entries, ∀ site g, ¬C.CallStep f site g := by
  constructor
  · intro hcomplete f hf site g hstep
    have hchain : C.CallChain ([] ++ [site]) g := .step (.entry hf) hstep List.not_mem_nil
    have hmem := hcomplete.chain _ g hchain (by simp)
    rw [contexts_build] at hmem
    exact List.not_mem_nil hmem
  · intro hnone
    constructor
    · intro ctx f hchain hne
      exfalso
      -- a chain with a site begins with a call of an entry function
      have hentry : ∀ {ctx f}, C.CallChain ctx f → ctx = [] ∧ f ∈ C.entries := by
        intro ctx f hchain
        induction hchain with
        | entry hf => exact ⟨rfl, hf⟩
        | step _ hstep _ ih => exact absurd hstep (hnone _ ih.2 _ _)
      exact hne (hentry hchain).1
    · intro f hf hnot
      obtain ⟨e, he, hsteps⟩ := queueInv_build.1.visited f hf
      exfalso
      rcases Relation.ReflTransGen.cases_head hsteps with rfl | ⟨g, ⟨site, hstep⟩, -⟩
      · exact hnot he
      · exact hnone e he site g hstep

/-! ### An entry that calls a function -/

/-- Function 0 calls function 1 at node 5. -/
def oneCall : CallStructure where
  entries := [0]
  objectInits _ := []
  otherCalls f := if f = 0 then [5] else []
  forks _ := []
  findCallee site := if site = 5 then some 1 else none
  findThreadEntry _ := none
  functions := {0, 1}
  entries_mem := by decide
  callee_mem site f h := by
    split_ifs at h
    simp [← Option.some.inj h]
  threadEntry_mem := nofun

/-- The callee is reached over a chain, and does not get its context. -/
theorem oneCall_not_complete :
    oneCall.CallChain [5] 1 ∧ 1 ∈ oneCall.build.visited ∧ [5] ∉ oneCall.build.contexts 1 := by
  refine ⟨?_, by decide, by decide⟩
  have hentry : oneCall.CallChain [] 0 := .entry (by decide)
  exact hentry.step (Or.inl ⟨by decide, rfl⟩) List.not_mem_nil

end CallStructure

end Lace
