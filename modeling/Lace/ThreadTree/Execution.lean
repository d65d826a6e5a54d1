import Lace.ThreadTree.Basic

/-!
# Executions of a thread tree

What the parallelism tests are about: entry threads start on their own, a thread forks a child
when it executes the child's fork node, and it passes the child's join node only when the
children it forked there have finished. A thread can run several times, because its fork node
lies on a cycle or because its entry is reentrant, so a state is a list of thread instances, each
with its position in the control flow of its thread.

Two instances with different histories are alive together only if, when the later one of two
siblings above them was forked, the family of the earlier one was still alive. `LiveAt` describes
when that is possible in terms of the control flow alone.

## Main results

* `Inv.step`: every step keeps the invariant;
* `Inv.of_reachable`: it holds in every reachable state.
-/

namespace Lace

open Library Library.Forest

/-- One run of a thread. -/
structure ThreadInstance where
  /-- The thread that is run. -/
  thread : ThreadId
  /-- The instance that forked this one. -/
  parent : Option ℕ
  /-- The node to be executed next; none once the instance has finished. -/
  node : Option NodeId

/-- A thread tree together with the control flow of its threads. -/
structure ThreadProgram where
  /-- The threads with their fork and join nodes. -/
  tree : ThreadCreationTree
  /-- Where a thread starts. -/
  entryNode : ThreadId → NodeId
  /-- What a thread may execute after a node; none stands for its end. -/
  flow : ThreadId → NodeId → Option NodeId → Prop

namespace ThreadProgram

/-- The program whose control flow is the graph itself, restricted to the nodes of each thread. A
thread ends where it has no successor. -/
def ofCFG (T : ThreadCreationTree) (entryNode : ThreadId → NodeId) : ThreadProgram where
  tree := T
  entryNode := entryNode
  flow t n
    | some m => T.ThreadStep t n m
    | none => ∀ m, ¬T.ThreadStep t n m

variable (P : ThreadProgram)

/-! ### States and steps -/

/-- The thread of the `i`-th instance. -/
def threadAt (s : List ThreadInstance) (i : ℕ) : ThreadId := (s[i]?).elim 0 (·.thread)

/-- The instance that forked the `i`-th one. -/
def parentAt (s : List ThreadInstance) (i : ℕ) : Option ℕ := (s[i]?).bind (·.parent)

/-- The position of the `i`-th instance. -/
def nodeAt (s : List ThreadInstance) (i : ℕ) : Option NodeId := (s[i]?).bind (·.node)

/-- The `i`-th instance moves. -/
def moveTo (s : List ThreadInstance) (i : ℕ) (o : Option NodeId) : List ThreadInstance :=
  s.modify i fun inst => { inst with node := o }

/-- The children that the `i`-th instance has to wait for at node `n` have finished. -/
def JoinReady (s : List ThreadInstance) (i : ℕ) (n : NodeId) : Prop :=
  ∀ j, parentAt s j = some i → (P.tree.thread (threadAt s j)).joinNode = some n →
    nodeAt s j = none

/-- One step of the system. -/
inductive Step (s : List ThreadInstance) : List ThreadInstance → Prop
  /-- An entry thread starts, once unless it is reentrant. -/
  | enter (t : ThreadId) (hentry : P.tree.parent t = none)
      (honce : (P.tree.thread t).isReentrant = true ∨ ∀ i < s.length, threadAt s i ≠ t) :
      Step s (s ++ [⟨t, none, some (P.entryNode t)⟩])
  /-- An instance executes a node that forks nothing. -/
  | move (i : ℕ) (n : NodeId) (o : Option NodeId) (hn : nodeAt s i = some n)
      (hflow : P.flow (threadAt s i) n o) (hjoin : P.JoinReady s i n)
      (hfork : ∀ c, P.tree.parent c = some (threadAt s i) → (P.tree.thread c).forkNode ≠ n) :
      Step s (moveTo s i o)
  /-- An instance executes the fork node of a child. -/
  | fork (i : ℕ) (n : NodeId) (o : Option NodeId) (c : ThreadId) (hn : nodeAt s i = some n)
      (hflow : P.flow (threadAt s i) n o) (hjoin : P.JoinReady s i n)
      (hparent : P.tree.parent c = some (threadAt s i)) (hfork : (P.tree.thread c).forkNode = n) :
      Step s (moveTo s i o ++ [⟨c, some i, some (P.entryNode c)⟩])

/-- The states of all executions. -/
def Reachable (s : List ThreadInstance) : Prop := Relation.ReflTransGen P.Step [] s

/-- Some instance of the thread has started and not finished. -/
def Alive (s : List ThreadInstance) (t : ThreadId) : Prop :=
  ∃ i, threadAt s i = t ∧ nodeAt s i ≠ none

/-! ### Where a child may still be alive -/

/-- Where the parent of `c` can be after it forked `c` without having executed `stop` since. -/
inductive After (c : ThreadId) (stop : Option NodeId) : NodeId → Prop
  | fork {p : ThreadId} {n : NodeId} : P.tree.parent c = some p →
      P.flow p (P.tree.thread c).forkNode (some n) → After c stop n
  | step {p : ThreadId} {m n : NodeId} : After c stop m → stop ≠ some m →
      P.tree.parent c = some p → P.flow p m (some n) → After c stop n

/-- Where the parent of `c` can be while `c` is not joined. -/
def Unjoined (c : ThreadId) : NodeId → Prop := P.After c (P.tree.thread c).joinNode

/-- Where the parent of `c` can be after it forked `c`. -/
def Reaches (c : ThreadId) : NodeId → Prop := P.After c none

/-- The parent of `c` can finish without having joined it. -/
def Escapes (c : ThreadId) : Prop :=
  ∃ p, P.tree.parent c = some p ∧ (P.flow p (P.tree.thread c).forkNode none ∨
    ∃ n, P.Unjoined c n ∧ (P.tree.thread c).joinNode ≠ some n ∧ P.flow p n none)

/-- `t` may outlive its ancestor `q`: some thread on the way can escape from its parent. -/
def Outlives (t q : ThreadId) : Prop :=
  ∃ e, Under P.tree.parent t e ∧ Below P.tree.parent e q ∧ P.Escapes e

/-- The family of `q` may still have `t` or an ancestor of `t` alive when the parent of `q` has
come to `n`. -/
def LiveAt (q t : ThreadId) (n : NodeId) : Prop :=
  P.Unjoined q n ∨ P.Reaches q n ∧ P.Outlives t q

variable {P}

/-- Without a stop the parent gets at least as far. -/
theorem After.mono {c : ThreadId} {stop : Option NodeId} {n : NodeId} (h : P.After c stop n) :
    P.After c none n := by
  induction h with
  | fork hp hflow => exact .fork hp hflow
  | step _ _ hp hflow ih => exact .step ih (Option.some_ne_none _).symm hp hflow

/-- A descendant can be alive wherever the thread above it can. -/
theorem LiveAt.of_under {q t u : ThreadId} {n : NodeId} (h : P.LiveAt q u n)
    (hu : Under P.tree.parent t u) : P.LiveAt q t n := by
  rcases h with h | ⟨hreach, e, he, hq, hesc⟩
  · exact Or.inl h
  · exact Or.inr ⟨hreach, e, hu.trans he, hq, hesc⟩

/-! ### The effect of a step on the three readings of a state -/

section Readings

variable {s : List ThreadInstance} {i j : ℕ} {o : Option NodeId} {inst : ThreadInstance}

@[simp]
theorem length_moveTo : (moveTo s i o).length = s.length := by
  simp [moveTo]

@[simp]
theorem threadAt_moveTo : threadAt (moveTo s i o) j = threadAt s j := by
  unfold threadAt moveTo
  rw [List.getElem?_modify]
  split_ifs <;> cases s[j]? <;> rfl

@[simp]
theorem parentAt_moveTo : parentAt (moveTo s i o) j = parentAt s j := by
  unfold parentAt moveTo
  rw [List.getElem?_modify]
  split_ifs <;> cases s[j]? <;> rfl

theorem nodeAt_moveTo_self (hi : nodeAt s i ≠ none) : nodeAt (moveTo s i o) i = o := by
  unfold nodeAt moveTo at *
  rw [List.getElem?_modify]
  cases h : s[i]? with
  | none => simp [h] at hi
  | some inst => simp

theorem nodeAt_moveTo_of_ne (hij : i ≠ j) : nodeAt (moveTo s i o) j = nodeAt s j := by
  unfold nodeAt moveTo
  rw [List.getElem?_modify]
  simp [hij]

/-- A move brings nobody to life. -/
theorem nodeAt_ne_none_of_moveTo (hi : nodeAt s i ≠ none) (hj : nodeAt (moveTo s i o) j ≠ none) :
    nodeAt s j ≠ none := by
  by_cases hij : i = j
  · exact hij ▸ hi
  · rwa [nodeAt_moveTo_of_ne hij] at hj

@[simp]
theorem threadAt_append_of_lt (hj : j < s.length) : threadAt (s ++ [inst]) j = threadAt s j := by
  simp [threadAt, List.getElem?_append_left hj]

@[simp]
theorem parentAt_append_of_lt (hj : j < s.length) : parentAt (s ++ [inst]) j = parentAt s j := by
  simp [parentAt, List.getElem?_append_left hj]

@[simp]
theorem nodeAt_append_of_lt (hj : j < s.length) : nodeAt (s ++ [inst]) j = nodeAt s j := by
  simp [nodeAt, List.getElem?_append_left hj]

@[simp]
theorem threadAt_append_length : threadAt (s ++ [inst]) s.length = inst.thread := by
  simp [threadAt]

@[simp]
theorem parentAt_append_length : parentAt (s ++ [inst]) s.length = inst.parent := by
  simp [parentAt]

@[simp]
theorem nodeAt_append_length : nodeAt (s ++ [inst]) s.length = inst.node := by
  simp [nodeAt]

/-- What has a parent is an instance. -/
theorem lt_length_of_parentAt {p : ℕ} (h : parentAt s j = some p) : j < s.length := by
  by_contra hlt
  simp [parentAt, List.getElem?_eq_none (Nat.not_lt.mp hlt)] at h

/-- What is alive is an instance. -/
theorem lt_length_of_nodeAt (h : nodeAt s j ≠ none) : j < s.length := by
  by_contra hlt
  simp [nodeAt, List.getElem?_eq_none (Nat.not_lt.mp hlt)] at h

theorem threadAt_of_length_le (h : s.length ≤ j) : threadAt s j = 0 := by
  simp [threadAt, List.getElem?_eq_none h]

theorem parentAt_of_length_le (h : s.length ≤ j) : parentAt s j = none := by
  simp [parentAt, List.getElem?_eq_none h]

/-- The parents after an instance is appended. -/
theorem parentAt_append_eq_some {p : ℕ} : parentAt (s ++ [inst]) j = some p ↔
    parentAt s j = some p ∨ j = s.length ∧ inst.parent = some p := by
  rcases lt_trichotomy j s.length with hj | rfl | hj
  · simp [hj, hj.ne]
  · simp [parentAt_of_length_le le_rfl]
  · have hlen : (s ++ [inst]).length ≤ j := by
      simpa using Nat.succ_le_of_lt hj
    simp [parentAt_of_length_le hlen, parentAt_of_length_le hj.le, hj.ne']

/-- An instance is where it moved, or where it was. -/
theorem nodeAt_moveTo_cases (hi : nodeAt s i ≠ none) {x : Option NodeId}
    (h : nodeAt (moveTo s i o) j = x) : i = j ∧ o = x ∨ nodeAt s j = x := by
  by_cases hij : i = j
  · subst hij
    rw [nodeAt_moveTo_self hi] at h
    exact Or.inl ⟨rfl, h⟩
  · rw [nodeAt_moveTo_of_ne hij] at h
    exact Or.inr h

theorem length_moveTo_append : (moveTo s i o ++ [inst]).length = s.length + 1 := by
  simp

/-- A fork leaves the threads of the old instances as they are. -/
theorem threadAt_fork_of_lt (hj : j < s.length) :
    threadAt (moveTo s i o ++ [inst]) j = threadAt s j := by
  rw [threadAt_append_of_lt (by rwa [length_moveTo]), threadAt_moveTo]

/-- It leaves their parents as they are. -/
theorem parentAt_fork_of_lt (hj : j < s.length) :
    parentAt (moveTo s i o ++ [inst]) j = parentAt s j := by
  rw [parentAt_append_of_lt (by rwa [length_moveTo]), parentAt_moveTo]

/-- The new instance runs its thread. -/
@[simp]
theorem threadAt_fork_length : threadAt (moveTo s i o ++ [inst]) s.length = inst.thread := by
  rw [← @length_moveTo s i o, threadAt_append_length]

/-- It has its parent. -/
@[simp]
theorem parentAt_fork_length : parentAt (moveTo s i o ++ [inst]) s.length = inst.parent := by
  rw [← @length_moveTo s i o, parentAt_append_length]

/-- An old instance that is alive after a fork was alive before it. -/
theorem nodeAt_ne_none_of_fork (hi : nodeAt s i ≠ none) (hj : j < s.length)
    (h : nodeAt (moveTo s i o ++ [inst]) j ≠ none) : nodeAt s j ≠ none := by
  rw [nodeAt_append_of_lt (by rwa [length_moveTo])] at h
  exact nodeAt_ne_none_of_moveTo hi h

end Readings

/-! ### The invariant -/

/-- How the positions of parents and children depend on each other. -/
structure Linked (P : ThreadProgram) (s : List ThreadInstance) : Prop where
  parent_lt_length : ∀ j i, parentAt s j = some i → i < s.length
  parent_eq : ∀ i, P.tree.parent (threadAt s i) = (parentAt s i).map (threadAt s)
  roots : ∀ i j, i < s.length → j < s.length → i ≠ j → threadAt s i = threadAt s j →
    P.tree.parent (threadAt s i) = none → (P.tree.thread (threadAt s i)).isReentrant = true
  reaches : ∀ j i n, parentAt s j = some i → nodeAt s i = some n → P.Reaches (threadAt s j) n
  unjoined : ∀ j i n, parentAt s j = some i → nodeAt s i = some n → nodeAt s j ≠ none →
    P.Unjoined (threadAt s j) n
  escapes : ∀ j i, parentAt s j = some i → nodeAt s i = none → nodeAt s j ≠ none →
    P.Escapes (threadAt s j)

/-- The invariant of all executions: of two siblings with living families, one family could
still be alive when the other sibling was forked. -/
structure Inv (P : ThreadProgram) (s : List ThreadInstance) : Prop extends P.Linked s where
  apart : ∀ x y a b z, nodeAt s x ≠ none → nodeAt s y ≠ none → Under (parentAt s) x a →
    Under (parentAt s) y b → a ≠ b → parentAt s a = some z → parentAt s b = some z →
      P.LiveAt (threadAt s a) (threadAt s x) (P.tree.thread (threadAt s b)).forkNode ∨
      P.LiveAt (threadAt s b) (threadAt s y) (P.tree.thread (threadAt s a)).forkNode

/-- An instance that can be appended: what links it to its parent. -/
structure Attaches (P : ThreadProgram) (s : List ThreadInstance) (inst : ThreadInstance) :
    Prop where
  lt_length : ∀ i, inst.parent = some i → i < s.length
  parent_eq : P.tree.parent inst.thread = inst.parent.map (threadAt s)
  root : P.tree.parent inst.thread = none →
    (P.tree.thread inst.thread).isReentrant = true ∨ ∀ i < s.length, threadAt s i ≠ inst.thread
  unjoined : ∀ i n, inst.parent = some i → nodeAt s i = some n → P.Unjoined inst.thread n
  escapes : ∀ i, inst.parent = some i → nodeAt s i = none → P.Escapes inst.thread

namespace Linked

variable {s : List ThreadInstance} {inst : ThreadInstance}

/-- The thread of a forked instance is a child of its parent's thread. -/
theorem parent_threadAt (hlink : P.Linked s) {j i : ℕ} (hj : parentAt s j = some i) :
    P.tree.parent (threadAt s j) = some (threadAt s i) := by
  rw [hlink.parent_eq, hj, Option.map_some]

/-- Between a living instance and a finished one above it, some thread has escaped. -/
theorem exists_escapes (hlink : P.Linked s) {w a : ℕ} (hw : nodeAt s w ≠ none)
    (ha : nodeAt s a = none) (h : Under (parentAt s) w a) :
    ∃ e, Under (parentAt s) w e ∧ Below (parentAt s) e a ∧ P.Escapes (threadAt s e) := by
  unfold Under at h
  induction h using Relation.ReflTransGen.head_induction_on with
  | refl => exact absurd ha hw
  | @head w p hstep hpa ih =>
      by_cases hp : nodeAt s p = none
      · exact ⟨w, Under.refl w, below_iff.mpr ⟨p, hstep, hpa⟩, hlink.escapes w p hstep hp hw⟩
      · obtain ⟨e, he, hea, hesc⟩ := ih hp
        exact ⟨e, he.of_parent hstep, hea, hesc⟩

/-- When the parent of `a` has come to `n` and some instance in the family of `a` is alive, the
control flow allows it. -/
theorem liveAt (hlink : P.Linked s) {w a z : ℕ} {n : NodeId} (hw : nodeAt s w ≠ none)
    (hwa : Under (parentAt s) w a) (ha : parentAt s a = some z) (hz : nodeAt s z = some n) :
    P.LiveAt (threadAt s a) (threadAt s w) n := by
  by_cases halive : nodeAt s a = none
  · obtain ⟨e, he, hea, hesc⟩ := hlink.exists_escapes hw halive hwa
    exact Or.inr ⟨hlink.reaches a z n ha hz, threadAt s e, he.map hlink.parent_eq,
      hea.map hlink.parent_eq, hesc⟩
  · exact Or.inl (hlink.unjoined a z n ha hz halive)

/-- What stands above an instance is an instance. -/
theorem lt_length_of_under (hlink : P.Linked s) {x a : ℕ} (hx : x < s.length)
    (h : Under (parentAt s) x a) : a < s.length := by
  rcases Relation.ReflTransGen.cases_tail h with rfl | ⟨y, -, hy⟩
  · exact hx
  · exact hlink.parent_lt_length y a hy

/-- A new instance changes nothing above the old ones. -/
theorem under_append_iff (hlink : P.Linked s) {x a : ℕ} (hx : x < s.length) :
    Under (parentAt (s ++ [inst])) x a ↔ Under (parentAt s) x a :=
  under_congr_on (fun _ hy => parentAt_append_of_lt hy)
    (fun _ _ _ hp => hlink.parent_lt_length _ _ hp) hx

/-- Executing a node keeps the links between the instances that are there. -/
theorem move (hlink : P.Linked s) {i : ℕ} {n : NodeId} {o : Option NodeId}
    (hn : nodeAt s i = some n) (hflow : P.flow (threadAt s i) n o) (hjoin : P.JoinReady s i n) :
    P.Linked (moveTo s i o) := by
  have hi : nodeAt s i ≠ none := by simp [hn]
  have hparent : parentAt (moveTo s i o) = parentAt s := funext fun _ => parentAt_moveTo
  have hthread : threadAt (moveTo s i o) = threadAt s := funext fun _ => threadAt_moveTo
  have hlive : ∀ j, nodeAt (moveTo s i o) j ≠ none → nodeAt s j ≠ none := fun _ =>
    nodeAt_ne_none_of_moveTo hi
  -- an instance that is alive while its parent executes `n` is not joined there
  have hunjoined : ∀ j, parentAt s j = some i → nodeAt s j ≠ none →
      (P.tree.thread (threadAt s j)).joinNode ≠ some n := fun j hj hlive hjn =>
    hlive (hjoin j hj hjn)
  constructor
  · simpa [hparent] using hlink.parent_lt_length
  · simpa [hparent, hthread] using hlink.parent_eq
  · simpa [hthread] using hlink.roots
  · -- Only the children of the instance that moves are concerned, here and below.
    intro j i' m hj hm
    rw [hparent] at hj
    rw [hthread]
    rcases nodeAt_moveTo_cases hi hm with ⟨rfl, rfl⟩ | hm
    · exact .step (hlink.reaches j i n hj hn) (Option.some_ne_none _).symm
        (hlink.parent_threadAt hj) hflow
    · exact hlink.reaches j i' m hj hm
  · intro j i' m hj hm hjlive
    rw [hparent] at hj
    rw [hthread]
    rcases nodeAt_moveTo_cases hi hm with ⟨rfl, rfl⟩ | hm
    · exact .step (hlink.unjoined j i n hj hn (hlive j hjlive)) (hunjoined j hj (hlive j hjlive))
        (hlink.parent_threadAt hj) hflow
    · exact hlink.unjoined j i' m hj hm (hlive j hjlive)
  · intro j i' hj hm hjlive
    rw [hparent] at hj
    rw [hthread]
    rcases nodeAt_moveTo_cases hi hm with ⟨rfl, rfl⟩ | hm
    · exact ⟨threadAt s i, hlink.parent_threadAt hj, Or.inr ⟨n,
        hlink.unjoined j i n hj hn (hlive j hjlive), hunjoined j hj (hlive j hjlive), hflow⟩⟩
    · exact hlink.escapes j i' hj hm (hlive j hjlive)

/-- Parents come before the new instance. -/
theorem parent_lt_length_append (hlink : P.Linked s) (hnew : P.Attaches s inst) {j i : ℕ}
    (hj : parentAt (s ++ [inst]) j = some i) : i < s.length := by
  rcases parentAt_append_eq_some.mp hj with hj | ⟨-, hj⟩
  · exact hlink.parent_lt_length j i hj
  · exact hnew.lt_length i hj

/-- The thread of the parent is the parent of the thread, with the new instance too. -/
theorem parent_eq_append (hlink : P.Linked s) (hnew : P.Attaches s inst) (i : ℕ) :
    P.tree.parent (threadAt (s ++ [inst]) i) =
      (parentAt (s ++ [inst]) i).map (threadAt (s ++ [inst])) := by
  have hmap : (parentAt (s ++ [inst]) i).map (threadAt (s ++ [inst])) =
      (parentAt (s ++ [inst]) i).map (threadAt s) := by
    refine Option.map_congr fun p hp => ?_
    exact threadAt_append_of_lt (hlink.parent_lt_length_append hnew hp)
  rw [hmap]
  rcases lt_trichotomy i s.length with hi | rfl | hi
  · rw [threadAt_append_of_lt hi, parentAt_append_of_lt hi, hlink.parent_eq]
  · rw [threadAt_append_length, parentAt_append_length, hnew.parent_eq]
  · have hlen : (s ++ [inst]).length ≤ i := by
      simpa using Nat.succ_le_of_lt hi
    rw [threadAt_of_length_le hlen, parentAt_of_length_le hlen,
      ← threadAt_of_length_le (le_refl s.length), hlink.parent_eq,
      parentAt_of_length_le le_rfl, Option.map_none]

/-- Two instances of a root are both old, or one of them is the new one. -/
theorem roots_append (hlink : P.Linked s) (hnew : P.Attaches s inst) {i j : ℕ}
    (hi : i < (s ++ [inst]).length) (hj : j < (s ++ [inst]).length) (hij : i ≠ j)
    (hthread : threadAt (s ++ [inst]) i = threadAt (s ++ [inst]) j)
    (hnone : P.tree.parent (threadAt (s ++ [inst]) i) = none) :
    (P.tree.thread (threadAt (s ++ [inst]) i)).isReentrant = true := by
  simp only [List.length_append, List.length_singleton, Nat.lt_succ_iff_lt_or_eq] at hi hj
  rcases hi with hi | rfl <;> rcases hj with hj | rfl
  · rw [threadAt_append_of_lt hi] at hthread hnone ⊢
    rw [threadAt_append_of_lt hj] at hthread
    exact hlink.roots i j hi hj hij hthread hnone
  · rw [threadAt_append_of_lt hi, threadAt_append_length] at hthread
    rw [threadAt_append_of_lt hi, hthread] at hnone ⊢
    exact (hnew.root hnone).resolve_right fun h => h i hi hthread
  · rw [threadAt_append_of_lt hj, threadAt_append_length] at hthread
    rw [threadAt_append_length] at hnone ⊢
    exact (hnew.root hnone).resolve_right fun h => h j hj hthread.symm
  · exact absurd rfl hij

/-- A forked instance and its parent are old, or the instance is the new one. -/
theorem forked_append_cases (hlink : P.Linked s) (hnew : P.Attaches s inst) {j i : ℕ}
    (hj : parentAt (s ++ [inst]) j = some i) : nodeAt (s ++ [inst]) i = nodeAt s i ∧
      (parentAt s j = some i ∧ threadAt (s ++ [inst]) j = threadAt s j ∧
          nodeAt (s ++ [inst]) j = nodeAt s j ∨
        inst.parent = some i ∧ threadAt (s ++ [inst]) j = inst.thread) := by
  refine ⟨nodeAt_append_of_lt (hlink.parent_lt_length_append hnew hj), ?_⟩
  rcases parentAt_append_eq_some.mp hj with hj | ⟨rfl, hparent⟩
  · have hlt := lt_length_of_parentAt hj
    exact Or.inl ⟨hj, threadAt_append_of_lt hlt, nodeAt_append_of_lt hlt⟩
  · exact Or.inr ⟨hparent, threadAt_append_length⟩

/-- A new instance keeps the links if it is linked itself. -/
theorem append (hlink : P.Linked s) (hnew : P.Attaches s inst) : P.Linked (s ++ [inst]) := by
  constructor
  · intro j i hj
    have hlt := hlink.parent_lt_length_append hnew hj
    simp only [List.length_append, List.length_singleton]
    omega
  · exact hlink.parent_eq_append hnew
  · exact fun i j => hlink.roots_append hnew
  · -- Here and below the old instances keep their links and the new one brings its own.
    intro j i n hj hn
    obtain ⟨hnode, ⟨hj, hthread, -⟩ | ⟨hparent, hthread⟩⟩ := hlink.forked_append_cases hnew hj
    · rw [hthread]
      exact hlink.reaches j i n hj (hnode ▸ hn)
    · rw [hthread]
      exact (hnew.unjoined i n hparent (hnode ▸ hn)).mono
  · intro j i n hj hn hlive
    obtain ⟨hnode, ⟨hj, hthread, hlast⟩ | ⟨hparent, hthread⟩⟩ := hlink.forked_append_cases hnew hj
    · rw [hthread]
      exact hlink.unjoined j i n hj (hnode ▸ hn) (hlast ▸ hlive)
    · rw [hthread]
      exact hnew.unjoined i n hparent (hnode ▸ hn)
  · intro j i hj hn hlive
    obtain ⟨hnode, ⟨hj, hthread, hlast⟩ | ⟨hparent, hthread⟩⟩ := hlink.forked_append_cases hnew hj
    · rw [hthread]
      exact hlink.escapes j i hj (hnode ▸ hn) (hlast ▸ hlive)
    · rw [hthread]
      exact hnew.escapes i hparent (hnode ▸ hn)

/-! ### The fork of a child -/

section Fork

variable {i : ℕ} {n : NodeId} {o : Option NodeId} {c : ThreadId}

/-- The child of an instance that executes the fork node can be appended. -/
theorem attaches_fork (hi : nodeAt s i ≠ none) (hflow : P.flow (threadAt s i) n o)
    (hparent : P.tree.parent c = some (threadAt s i)) (hfork : (P.tree.thread c).forkNode = n)
    (m : NodeId) : P.Attaches (moveTo s i o) ⟨c, some i, some m⟩ where
  lt_length := by
    rintro j ⟨⟩
    rw [length_moveTo]
    exact lt_length_of_nodeAt hi
  parent_eq := by
    rw [hparent, Option.map_some, threadAt_moveTo]
  root hnone := by
    rw [hparent] at hnone
    cases hnone
  unjoined := by
    rintro j k ⟨⟩ hk
    rw [nodeAt_moveTo_self hi] at hk
    subst hk
    exact .fork hparent (hfork ▸ hflow)
  escapes := by
    rintro j ⟨⟩ hk
    rw [nodeAt_moveTo_self hi] at hk
    subst hk
    exact ⟨threadAt s i, hparent, Or.inl (hfork ▸ hflow)⟩

/-- What stands above an old instance was there before the fork. -/
theorem under_fork_of_lt (hlink : P.Linked s) (hmove : P.Linked (moveTo s i o)) {y a : ℕ}
    (hy : y < s.length) (h : Under (parentAt (moveTo s i o ++ [inst])) y a) :
    a < s.length ∧ Under (parentAt s) y a := by
  have hparent : parentAt (moveTo s i o) = parentAt s := funext fun _ => parentAt_moveTo
  rw [hmove.under_append_iff (by rwa [length_moveTo]), hparent] at h
  exact ⟨hlink.lt_length_of_under hy h, h⟩

end Fork

end Linked

/-- `y` stands for `x` before the fork: it was alive, its thread is that of `x` or the one above it,
and `x` has no families but its own and those of `y`. -/
structure StandsFor (P : ThreadProgram) (s s' : List ThreadInstance) (x y : ℕ) : Prop where
  alive : nodeAt s y ≠ none
  under : Under P.tree.parent (threadAt s' x) (threadAt s y)
  above : ∀ a, Under (parentAt s') x a →
    a = s.length ∨ a < s.length ∧ Under (parentAt s) y a

namespace Linked

variable {s : List ThreadInstance} {i : ℕ} {n : NodeId} {o : Option NodeId} {c : ThreadId}
  {m : NodeId}

/-- The parent stands for the new instance, and every old instance for itself. -/
theorem exists_standsFor (hlink : P.Linked s) (hmove : P.Linked (moveTo s i o))
    (hi : nodeAt s i ≠ none) (hparent : P.tree.parent c = some (threadAt s i)) {x : ℕ}
    (hx : nodeAt (moveTo s i o ++ [⟨c, some i, some m⟩]) x ≠ none) :
    ∃ y, P.StandsFor s (moveTo s i o ++ [⟨c, some i, some m⟩]) x y := by
  by_cases hlast : x = s.length
  · subst hlast
    refine ⟨i, hi, ?_, fun a ha => ?_⟩
    · rw [threadAt_fork_length]
      exact (Under.refl _).of_parent hparent
    · rcases ha.eq_or_parent with rfl | ⟨p, hp, ha⟩
      · exact Or.inl rfl
      · rw [parentAt_fork_length] at hp
        obtain rfl := Option.some.inj hp
        exact Or.inr (hlink.under_fork_of_lt hmove (lt_length_of_nodeAt hi) ha)
  · have hlt := lt_length_of_nodeAt hx
    rw [length_moveTo_append] at hlt
    have hxlt : x < s.length := by omega
    refine ⟨x, nodeAt_ne_none_of_fork hi hxlt hx, ?_, fun a ha => ?_⟩
    · rw [threadAt_fork_of_lt hxlt]
      exact Under.refl _
    · exact Or.inr (hlink.under_fork_of_lt hmove hxlt ha)

/-- When a child is forked, the families of its older siblings are under control, as the parent is
at the fork node. -/
theorem liveAt_fork (hlink : P.Linked s) (hn : nodeAt s i = some n)
    (hfork : (P.tree.thread c).forkNode = n) {x y b z : ℕ}
    (hrep : P.StandsFor s (moveTo s i o ++ [⟨c, some i, some m⟩]) x y)
    (hxb : Under (parentAt (moveTo s i o ++ [⟨c, some i, some m⟩])) x b) (hb : b ≠ s.length)
    (hz : parentAt (moveTo s i o ++ [⟨c, some i, some m⟩]) s.length = some z)
    (hbz : parentAt (moveTo s i o ++ [⟨c, some i, some m⟩]) b = some z) :
    P.LiveAt (threadAt (moveTo s i o ++ [⟨c, some i, some m⟩]) b)
      (threadAt (moveTo s i o ++ [⟨c, some i, some m⟩]) x)
      (P.tree.thread (threadAt (moveTo s i o ++ [⟨c, some i, some m⟩]) s.length)).forkNode := by
  obtain ⟨hblt, hyb⟩ := (hrep.above b hxb).resolve_left hb
  rw [parentAt_fork_length] at hz
  obtain rfl := Option.some.inj hz
  rw [parentAt_fork_of_lt hblt] at hbz
  rw [threadAt_fork_length, hfork, threadAt_fork_of_lt hblt]
  exact (hlink.liveAt hrep.alive hyb hbz hn).of_under hrep.under

end Linked

namespace Inv

variable {s : List ThreadInstance}

/-- Before the first entry nothing is alive. -/
theorem nil : P.Inv [] := by
  constructor
  · constructor <;> simp [parentAt, nodeAt, threadAt]
    exact Option.eq_none_iff_forall_ne_some.mpr fun p hp =>
      Nat.not_lt_zero p (P.tree.parent_lt_self hp)
  · simp [nodeAt]

/-- The start of an entry thread: the new instance has no siblings. -/
theorem enter (hinv : P.Inv s) {t : ThreadId} (hentry : P.tree.parent t = none)
    (honce : (P.tree.thread t).isReentrant = true ∨ ∀ i < s.length, threadAt s i ≠ t)
    (node : Option NodeId) : P.Inv (s ++ [⟨t, none, node⟩]) := by
  have hlink := hinv.toLinked
  have hnew : P.Attaches s ⟨t, none, node⟩ :=
    ⟨nofun, by simpa using hentry, fun _ => honce, nofun, nofun⟩
  refine ⟨hlink.append hnew, ?_⟩
  -- whoever lies below a forked instance was there before
  have hold : ∀ x a z, Under (parentAt (s ++ [⟨t, none, node⟩])) x a →
      parentAt (s ++ [⟨t, none, node⟩]) a = some z → x < s.length ∧ a < s.length := by
    intro x a z hxa ha
    have halt : a < s.length := by
      rcases parentAt_append_eq_some.mp ha with ha | ⟨-, ha⟩
      · exact lt_length_of_parentAt ha
      · cases ha
    refine ⟨?_, halt⟩
    by_contra hx
    have hroot : parentAt (s ++ [⟨t, none, node⟩]) x = none := by
      refine Option.eq_none_iff_forall_ne_some.mpr fun p hp => ?_
      rcases parentAt_append_eq_some.mp hp with hp | ⟨-, hp⟩
      · exact hx (lt_length_of_parentAt hp)
      · cases hp
    exact hx (hxa.eq_of_root hroot ▸ halt)
  intro x y a b z hx hy hxa hyb hab ha hb
  obtain ⟨hxlt, halt⟩ := hold x a z hxa ha
  obtain ⟨hylt, hblt⟩ := hold y b z hyb hb
  rw [nodeAt_append_of_lt hxlt] at hx
  rw [nodeAt_append_of_lt hylt] at hy
  rw [hlink.under_append_iff hxlt] at hxa
  rw [hlink.under_append_iff hylt] at hyb
  rw [parentAt_append_of_lt halt] at ha
  rw [parentAt_append_of_lt hblt] at hb
  simp only [threadAt_append_of_lt, hxlt, hylt, halt, hblt]
  exact hinv.apart x y a b z hx hy hxa hyb hab ha hb

/-- Executing a node that forks nothing. -/
theorem move (hinv : P.Inv s) {i : ℕ} {n : NodeId} {o : Option NodeId}
    (hn : nodeAt s i = some n) (hflow : P.flow (threadAt s i) n o) (hjoin : P.JoinReady s i n) :
    P.Inv (moveTo s i o) := by
  have hi : nodeAt s i ≠ none := by simp [hn]
  refine ⟨hinv.toLinked.move hn hflow hjoin, fun x y a b z hx hy => ?_⟩
  rw [show parentAt (moveTo s i o) = parentAt s from funext fun _ => parentAt_moveTo,
    show threadAt (moveTo s i o) = threadAt s from funext fun _ => threadAt_moveTo]
  exact hinv.apart x y a b z (nodeAt_ne_none_of_moveTo hi hx) (nodeAt_ne_none_of_moveTo hi hy)

/-- Executing the fork node of a child: at that moment the parent was alive, so the families of
the older siblings of the new instance, and of every instance above it, are under control. -/
theorem fork (hinv : P.Inv s) {i : ℕ} {n : NodeId} {o : Option NodeId} {c : ThreadId}
    (hn : nodeAt s i = some n) (hflow : P.flow (threadAt s i) n o) (hjoin : P.JoinReady s i n)
    (hparent : P.tree.parent c = some (threadAt s i)) (hfork : (P.tree.thread c).forkNode = n)
    (m : NodeId) : P.Inv (moveTo s i o ++ [⟨c, some i, some m⟩]) := by
  have hi : nodeAt s i ≠ none := by simp [hn]
  have hlink := hinv.toLinked
  have hmove : P.Linked (moveTo s i o) := hlink.move hn hflow hjoin
  refine ⟨hmove.append (Linked.attaches_fork hi hflow hparent hfork m), ?_⟩
  intro x y a b z hx hy hxa hyb hab ha hb
  obtain ⟨x', hxrep⟩ := hlink.exists_standsFor hmove hi hparent hx
  obtain ⟨y', hyrep⟩ := hlink.exists_standsFor hmove hi hparent hy
  -- One of the siblings may be the new instance; otherwise both are old.
  by_cases halen : a = s.length
  · subst halen
    exact Or.inr (hlink.liveAt_fork hn hfork hyrep hyb (Ne.symm hab) ha hb)
  by_cases hblen : b = s.length
  · subst hblen
    exact Or.inl (hlink.liveAt_fork hn hfork hxrep hxa halen hb ha)
  obtain ⟨halt, hxa'⟩ := (hxrep.above a hxa).resolve_left halen
  obtain ⟨hblt, hyb'⟩ := (hyrep.above b hyb).resolve_left hblen
  rw [parentAt_fork_of_lt halt] at ha
  rw [parentAt_fork_of_lt hblt] at hb
  rw [threadAt_fork_of_lt halt, threadAt_fork_of_lt hblt]
  exact (hinv.apart _ _ a b z hxrep.alive hyrep.alive hxa' hyb' hab ha hb).imp
    (LiveAt.of_under · hxrep.under) (LiveAt.of_under · hyrep.under)

/-- Every step keeps the invariant. -/
theorem step {s' : List ThreadInstance} (hinv : P.Inv s) (hstep : P.Step s s') : P.Inv s' := by
  cases hstep with
  | enter t hentry honce => exact hinv.enter hentry honce _
  | move i n o hn hflow hjoin hfork => exact hinv.move hn hflow hjoin
  | fork i n o c hn hflow hjoin hparent hfork => exact hinv.fork hn hflow hjoin hparent hfork _

/-- The invariant holds in every reachable state. -/
theorem of_reachable (h : P.Reachable s) : P.Inv s := by
  induction h with
  | refl => exact nil
  | tail _ hstep ih => exact ih.step hstep

end Inv

end ThreadProgram

end Lace
