import Lace.LockSet.Basic
import Lace.Library.Traversal

/-!
# What is held along a path

The reference semantics of the lockset analysis. A held lock is named by the node that acquired
it. A node acquires one lock, or gives back the last held lock that aliases its release, or does
neither.

The analysis comes to every node along one path of the function. Which one, is decided by the
`ORDER` edges and the addresses of the nodes: they fix the order in which the nodes are
processed, and a node is processed with what its last processed predecessor held.

## Main definitions

* `LockProgram.op`, `LockProgram.post`, `LockProgram.given`: the effect of a node;
* `LockProgram.order`, `LockProgram.arrival`: the order of processing, and what is held on arrival;
* `LockProgram.Executes`, `LockProgram.HeldOn`: the operations along any path, and whether a lock
  is held after them.
-/

namespace Lace.LockProgram

open Library.Traversal (before)

variable (P : LockProgram) (A : HeapLayout)

/-! ### One node -/

/-- The lock operation of a node. -/
def op (n : NodeId) : Option LockOp := (P.ops n).head?

/-- The acquire node of the lock that `n` acquires. -/
def acquireAt (n : NodeId) : Option NodeId :=
  match P.op n with
  | some (.acquire a) => some a
  | _ => none

/-- A release at `r` may give back the lock acquired at `x`. -/
def GivesBack (r x : NodeId) : Bool := (P.acquireAt x).any fun a => P.ir.isLockAlias a r

/-- The lock that `n` gives back, when `h` is held before. -/
def given (n : NodeId) (h : List NodeId) : Option NodeId :=
  match P.op n with
  | some (.release r) => h.reverse.find? (P.GivesBack r)
  | _ => none

/-- What is held after `n`, when `h` is held before. -/
def post (n : NodeId) (h : List NodeId) : List NodeId :=
  if (P.acquireAt n).isSome then h ++ [n]
  else
    match P.given n h with
    | none => h
    | some x => h.erase x

/-! ### The order of processing -/

/-- The nodes of a function in the order in which the analysis processes them, the last one
first. -/
def orderOf (f : CCPGFunction) : List NodeId :=
  Library.Traversal.order P.ccpg.orderSuccs A.nodeAddr (P.ccpg.edges.length + 2) f.funcNode

/-- The nodes of all functions in the order in which the analysis processes them. -/
def order : List NodeId := P.functions.foldl (fun vis f => P.orderOf A f ++ vis) []

/-- The acquiring nodes among the processed ones, in the order in which they acquire. -/
def acquired (vis : List NodeId) : List NodeId :=
  vis.reverse.filter fun n => (P.acquireAt n).isSome

/-- The number of locks created before the one acquired at `x`. -/
def lockNo (vis : List NodeId) (x : NodeId) : ℕ := (P.acquired vis).idxOf x

/-- What `m` hands to its successor `n`, when it holds `h`. Where an `ORDER` self-loop of `m`
comes before the edge to `n`, the lockset was merged with itself and so sorted by address. -/
def handed (vis : List NodeId) (m : NodeId) (h : List NodeId) (n : NodeId) : List NodeId :=
  if m ∈ (P.ccpg.orderSuccs m).reverse.dropWhile (· ≠ n) then
    h.insertionSort fun x y => A.lockAddr (P.lockNo vis x) ≤ A.lockAddr (P.lockNo vis y)
  else h

/-- What is held on arrival at `n` when the nodes `vis` were processed: what the last processed
predecessor handed on. -/
def arrival : List NodeId → NodeId → List NodeId
  | [], _ => []
  | m :: vis, n =>
      if P.ccpg.OrderStep m n then P.handed A (m :: vis) m (P.post m (arrival vis m)) n
      else arrival vis n

/-- What is held after `n`, as it was processed. -/
def heldAfter (vis : List NodeId) (n : NodeId) : List NodeId :=
  P.post n (P.arrival A (before vis n) n)

/-- The lock that `n` gave back when it was processed. -/
def givenAt (vis : List NodeId) (n : NodeId) : Option NodeId :=
  P.given n (P.arrival A (before vis n) n)

/-- No lock was given back at two nodes. -/
def GivenOnce (vis : List NodeId) : Prop :=
  ∀ n ∈ vis, ∀ n' ∈ vis, ∀ x, P.givenAt A vis n = some x → P.givenAt A vis n' = some x → n = n'

/-! ### All paths -/

/-- The node is reached from the entry of the function. -/
def Inside (f : CCPGFunction) : NodeId → Prop :=
  Relation.ReflTransGen P.ccpg.OrderStep f.funcNode

/-- Along some path that ends with `n`, the operations `tr` are executed. -/
inductive Executes (f : CCPGFunction) : NodeId → List LockOp → Prop
  | entry : Executes f f.funcNode (P.ops f.funcNode)
  | step {m n : NodeId} {tr : List LockOp} : Executes f m tr → P.ccpg.OrderStep m n →
      Executes f n (tr ++ P.ops n)

/-- The operations acquire a lock that aliases `a` and execute no aliasing release after that. -/
def HeldOn (tr : List LockOp) (a : NodeId) : Prop :=
  ∃ pre x suf, tr = pre ++ .acquire x :: suf ∧ (x = a ∨ P.ir.isLockAlias x a = true) ∧
    ∀ r, .release r ∈ suf → P.ir.isLockAlias a r = false

variable {P A} {f : CCPGFunction} {n m x r a : NodeId} {h vis old : List NodeId}

/-- An acquire or release node has no `CALL` edge. -/
theorem calleeOp_eq_none (hown : P.ownOp n ≠ none) : P.calleeOp n = none := by
  have htype : P.ccpg.type n ≠ .objectInit ∧ P.ccpg.type n ≠ .otherCall := by
    constructor <;> intro htype <;> exact hown (by rw [ownOp, htype])
  have hcall : P.ccpg.hasCallEdge n = none := by
    rw [CCPG.hasCallEdge, Option.map_eq_none_iff, List.find?_eq_none]
    intro e he hcall
    obtain ⟨hmem, rfl⟩ := P.ccpg.mem_getOutEdges.mp he
    rcases P.call_src e hmem (by simpa using hcall) with hsrc | hsrc
    · exact htype.1 hsrc
    · exact htype.2 hsrc
  rw [calleeOp, hcall]
  simp

/-- A node has at most one lock operation. -/
theorem ops_eq : P.ops n = (P.op n).toList := by
  rw [op, ops]
  cases hown : P.ownOp n with
  | none => cases P.calleeOp n <;> rfl
  | some o =>
      rw [calleeOp_eq_none (by simp [hown])]
      rfl

/-- A node has an acquire exactly if its operation is one. -/
@[simp]
theorem acquireAt_eq_some : P.acquireAt n = some a ↔ P.op n = some (.acquire a) := by
  rw [acquireAt]
  split <;> simp_all

/-- A node gives a lock back if it releases it and the lock is the last that fits. -/
theorem given_eq_some : P.given n h = some x ↔
    ∃ r, P.op n = some (.release r) ∧ h.reverse.find? (P.GivesBack r) = some x := by
  rw [given]
  split <;> simp_all

/-- What is given back was held. -/
theorem mem_of_given (hgiven : P.given n h = some x) : x ∈ h := by
  obtain ⟨r, -, hfind⟩ := given_eq_some.mp hgiven
  exact List.mem_reverse.mp (List.mem_of_find?_eq_some hfind)

/-- An acquire adds its lock at the end. -/
theorem post_of_acquire (hop : P.op n = some (.acquire a)) : P.post n h = h ++ [n] := by
  rw [post, acquireAt_eq_some.mpr hop]
  rfl

/-- Any other node takes away what it gives back. -/
theorem post_of_not_acquire (hacq : P.acquireAt n = none) :
    P.post n h = (P.given n h).elim h fun x => h.erase x := by
  rw [post, hacq]
  cases P.given n h <;> rfl

/-- What is held after a node was held before or acquired by it. -/
theorem mem_of_mem_post (hx : x ∈ P.post n h) :
    x ∈ h ∨ x = n ∧ (P.acquireAt n).isSome = true := by
  rw [post] at hx
  split_ifs at hx with hacq
  · exact (List.mem_append.mp hx).imp_right fun hx => ⟨List.mem_singleton.mp hx, hacq⟩
  · refine Or.inl ?_
    cases hgiven : P.given n h with
    | none => rwa [hgiven] at hx
    | some y =>
        rw [hgiven] at hx
        exact List.mem_of_mem_erase hx

/-- A lock that is held on arrival is held afterwards or given back. -/
theorem mem_post_or_given (hx : x ∈ h) : x ∈ P.post n h ∨ P.given n h = some x := by
  by_cases hgiven : P.given n h = some x
  · exact Or.inr hgiven
  refine Or.inl ?_
  rw [post]
  split_ifs with hacq
  · exact List.mem_append_left _ hx
  · cases hy : P.given n h with
    | none => exact hx
    | some y =>
        rw [hy] at hgiven
        exact (List.mem_erase_of_ne fun hxy => hgiven (congrArg some hxy.symm)).mpr hx

/-- No lock is held twice after a node. -/
theorem nodup_post (hh : h.Nodup) (hn : n ∉ h) : (P.post n h).Nodup := by
  rw [post]
  split_ifs
  · exact List.nodup_append.mpr ⟨hh, by simp, fun y hy z hz => by
      rw [List.mem_singleton.mp hz]
      exact fun hyn => hn (hyn ▸ hy)⟩
  · cases P.given n h with
    | none => exact hh
    | some y => exact hh.erase y

/-! ### Arrivals -/

/-- The acquires of a traversal, node by node. -/
theorem acquired_cons : P.acquired (m :: vis) =
    P.acquired vis ++ if (P.acquireAt m).isSome then [m] else [] := by
  rw [acquired, List.reverse_cons, List.filter_append, acquired]
  congr 1
  cases h : (P.acquireAt m).isSome <;> simp [h]

/-- The acquires are the visited nodes that acquire. -/
theorem mem_acquired : x ∈ P.acquired vis ↔ x ∈ vis ∧ (P.acquireAt x).isSome = true := by
  simp [acquired]

/-- No acquire is listed twice. -/
theorem nodup_acquired (hvis : vis.Nodup) : (P.acquired vis).Nodup :=
  (List.nodup_reverse.mpr hvis).filter _

/-- A lock keeps its number. -/
theorem lockNo_cons (hx : x ∈ P.acquired vis) : P.lockNo (m :: vis) x = P.lockNo vis x := by
  rw [lockNo, acquired_cons, List.idxOf_append_of_mem hx, lockNo]

/-- Handing locks on changes their order only. -/
@[simp]
theorem perm_handed : (P.handed A vis m h n).Perm h := by
  rw [handed]
  split_ifs
  · exact List.perm_insertionSort _ _
  · exact List.Perm.refl _

/-- The locks held on arrival were acquired at processed nodes. -/
theorem mem_acquired_of_mem_arrival (hx : x ∈ P.arrival A vis n) : x ∈ P.acquired vis := by
  induction vis generalizing n with
  | nil => cases hx
  | cons m vis ih =>
      rw [acquired_cons]
      rw [arrival] at hx
      split_ifs at hx with hstep
      · rcases mem_of_mem_post (perm_handed.mem_iff.mp hx) with hx | ⟨rfl, hacq⟩
        · exact List.mem_append_left _ (ih hx)
        · exact List.mem_append_right _ (by simp [hacq])
      · exact List.mem_append_left _ (ih hx)

/-- No lock arrives twice. -/
theorem nodup_arrival (hvis : vis.Nodup) : (P.arrival A vis n).Nodup := by
  induction vis generalizing n with
  | nil => exact List.nodup_nil
  | cons m vis ih =>
      obtain ⟨hm, hvis⟩ := List.nodup_cons.mp hvis
      rw [arrival]
      split_ifs
      · refine perm_handed.nodup_iff.mpr (nodup_post (ih hvis) fun hmem => hm ?_)
        exact (mem_acquired.mp (mem_acquired_of_mem_arrival hmem)).1
      · exact ih hvis

/-- Without a processed predecessor nothing is held on arrival. -/
theorem arrival_eq_nil (hvis : ∀ q ∈ vis, ¬P.ccpg.OrderStep q n) : P.arrival A vis n = [] := by
  induction vis with
  | nil => rfl
  | cons m vis ih =>
      rw [arrival, if_neg (hvis m (by simp))]
      exact ih fun q hq => hvis q (List.mem_cons_of_mem _ hq)

/-- The locks held after a processed node were acquired at processed nodes. -/
theorem mem_acquired_of_mem_heldAfter (hn : n ∈ vis) (hx : x ∈ P.heldAfter A vis n) :
    x ∈ P.acquired vis := by
  rw [mem_acquired]
  rcases mem_of_mem_post hx with hx | ⟨rfl, hacq⟩
  · obtain ⟨hmem, hacq⟩ := mem_acquired.mp (mem_acquired_of_mem_arrival hx)
    exact ⟨Library.Traversal.before_subset hmem, hacq⟩
  · exact ⟨hn, hacq⟩

/-- No lock is held twice after a node of the traversal. -/
theorem nodup_heldAfter (hvis : vis.Nodup) : (P.heldAfter A vis n).Nodup := by
  have hbefore : (before vis n).Nodup := Library.Traversal.nodup_before hvis
  refine nodup_post (nodup_arrival hbefore) fun hn => ?_
  have hmem := mem_acquired_of_mem_arrival hn
  exact Library.Traversal.not_mem_before_self hvis (mem_acquired.mp hmem).1

/-- Processing another node does not change what was held before. -/
theorem heldAfter_cons (hnm : n ≠ m) : P.heldAfter A (m :: vis) n = P.heldAfter A vis n := by
  rw [heldAfter, Library.Traversal.before_cons_of_ne hnm, heldAfter]

/-- A node that is visited later changes nothing of what others give back. -/
theorem givenAt_cons (hnm : n ≠ m) : P.givenAt A (m :: vis) n = P.givenAt A vis n := by
  rw [givenAt, Library.Traversal.before_cons_of_ne hnm, givenAt]

/-- What is held after the node that is visited last. -/
theorem heldAfter_cons_self : P.heldAfter A (m :: vis) m = P.post m (P.arrival A vis m) := by
  rw [heldAfter, Library.Traversal.before_cons_self]

/-- What the node that is visited last gives back. -/
theorem givenAt_cons_self : P.givenAt A (m :: vis) m = P.given m (P.arrival A vis m) := by
  rw [givenAt, Library.Traversal.before_cons_self]

/-- No lock is given back twice when none was before and the last node gives back a new one. -/
theorem givenOnce_cons (hm : m ∉ vis) : P.GivenOnce A (m :: vis) ↔
    P.GivenOnce A vis ∧ ∀ x, P.given m (P.arrival A vis m) = some x →
      ∀ q ∈ vis, P.givenAt A vis q ≠ some x := by
  have hne : ∀ q ∈ vis, q ≠ m := fun q hq heq => hm (heq ▸ hq)
  constructor
  · intro honce
    refine ⟨fun n hn n' hn' x hx hx' => ?_, fun x hx q hq hxq => ?_⟩
    · apply honce n (List.mem_cons_of_mem _ hn) n' (List.mem_cons_of_mem _ hn') x
      · rwa [givenAt_cons (hne n hn)]
      · rwa [givenAt_cons (hne n' hn')]
    · refine hne q hq (honce q (List.mem_cons_of_mem _ hq) m List.mem_cons_self x ?_ ?_)
      · rwa [givenAt_cons (hne q hq)]
      · rwa [givenAt_cons_self]
  · rintro ⟨honce, hfresh⟩ n hn n' hn' x hx hx'
    -- Of two nodes that give back one lock, at most one is the last node.
    rcases List.mem_cons.mp hn with rfl | hnvis
    · rw [givenAt_cons_self] at hx
      rcases List.mem_cons.mp hn' with rfl | hnvis'
      · rfl
      · rw [givenAt_cons (hne n' hnvis')] at hx'
        exact absurd hx' (hfresh x hx n' hnvis')
    · rw [givenAt_cons (hne n hnvis)] at hx
      rcases List.mem_cons.mp hn' with rfl | hnvis'
      · rw [givenAt_cons_self] at hx'
        exact absurd hx (hfresh x hx' n hnvis)
      · rw [givenAt_cons (hne n' hnvis')] at hx'
        exact honce n hnvis n' hnvis' x hx hx'

/-! ### Paths -/

/-- The control flow stays inside a function. -/
theorem Inside.step (hn : P.Inside f m) (hstep : P.ccpg.OrderStep m n) : P.Inside f n :=
  Relation.ReflTransGen.tail hn hstep

/-- The nodes inside a function are those its function node reaches. -/
theorem inside_iff : Relation.ReflTransGen (Library.Traversal.Step P.ccpg.orderSuccs) f.funcNode n ↔
    P.Inside f n := by
  have hstep : Library.Traversal.Step P.ccpg.orderSuccs = P.ccpg.OrderStep := by
    ext m n
    exact P.ccpg.mem_orderSuccs
  rw [hstep, Inside]

/-- The nodes of a function are its function node and destinations of edges. -/
theorem Inside.mem_insert (hn : P.Inside f n) :
    n ∈ insert f.funcNode (P.ccpg.edges.map CCPGEdge.dst).toFinset := by
  cases hn with
  | refl => exact Finset.mem_insert_self _ _
  | tail _ hstep =>
      refine Finset.mem_insert_of_mem (List.mem_toFinset.mpr ?_)
      exact List.mem_map.mpr ⟨_, hstep, rfl⟩

/-- The fuel of the loop is enough for all nodes of a function. -/
theorem card_insert_lt : (insert f.funcNode (P.ccpg.edges.map CCPGEdge.dst).toFinset).card <
    P.ccpg.edges.length + 2 := by
  have hedges := List.toFinset_card_le (P.ccpg.edges.map CCPGEdge.dst)
  rw [List.length_map] at hedges
  have hinsert := Finset.card_insert_le f.funcNode (P.ccpg.edges.map CCPGEdge.dst).toFinset
  omega

/-- The analysis processes the nodes that are reached from the entry. -/
theorem mem_orderOf : n ∈ P.orderOf A f ↔ P.Inside f n :=
  (Library.Traversal.mem_order (fun _ hn => (inside_iff.mp hn).mem_insert) card_insert_lt).trans
    inside_iff

/-- The traversal visits the nodes inside the functions. -/
theorem mem_order : n ∈ P.order A ↔ ∃ f ∈ P.functions, P.Inside f n := by
  have hfold : ∀ (fs : List CCPGFunction) (vis : List NodeId),
      n ∈ fs.foldl (fun vis f => P.orderOf A f ++ vis) vis ↔
        n ∈ vis ∨ ∃ f ∈ fs, P.Inside f n := by
    intro fs
    induction fs with
    | nil => simp
    | cons f fs ih =>
        intro vis
        rw [List.foldl_cons, ih, List.mem_append, mem_orderOf, List.exists_mem_cons_iff, or_assoc,
          or_left_comm]
  rw [order, hfold]
  simp

/-- An execution stays inside its function. -/
theorem Executes.inside {tr : List LockOp} (hpath : P.Executes f n tr) : P.Inside f n := by
  induction hpath with
  | entry => exact Relation.ReflTransGen.refl
  | step _ hstep ih => exact ih.step hstep

/-- Every node inside a function is executed at the end of some path. -/
theorem Inside.exists_executes (hn : P.Inside f n) : ∃ tr, P.Executes f n tr := by
  induction hn with
  | refl => exact ⟨_, .entry⟩
  | tail _ hstep ih =>
      obtain ⟨tr, htr⟩ := ih
      exact ⟨_, htr.step hstep⟩

/-- The operations along a path end with those of its last node. -/
theorem Executes.exists_eq_append {tr : List LockOp} (hpath : P.Executes f n tr) :
    ∃ tr', tr = tr' ++ P.ops n := by
  cases hpath with
  | entry => exact ⟨[], rfl⟩
  | step hpath _ => exact ⟨_, rfl⟩

/-- A lock is not held after a release that aliases it. -/
theorem not_heldOn_release {tr : List LockOp} (halias : P.ir.isLockAlias a r = true) :
    ¬P.HeldOn (tr ++ [.release r]) a := by
  rintro ⟨pre, x, suf, htr, -, hno⟩
  have hmem : LockOp.release r ∈ suf := by
    cases suf using List.reverseRecOn with
    | nil =>
        have hlast := (List.append_inj' htr rfl).2
        cases hlast
    | append_singleton suf o =>
        rw [← List.cons_append, ← List.append_assoc] at htr
        rw [List.singleton_inj.mp (List.append_inj' htr rfl).2]
        simp
  rw [hno r hmem] at halias
  cases halias

end Lace.LockProgram
