import Lace.ThreadTree.Basic

/-!
# Pairs of parallel threads

`addParallelThreadPairs` records how two threads are related, once for a pair in either order. It
asks for the pair in the order of the addresses, but stores it in the order of the call, and
`getThreadRelationship` looks it up in the order of its own arguments.

## Main definitions

* `addParallelThreadPairs`, `addAll`: the map after one call, and after a sequence of calls;
* `findThreadRelationship`, `getThreadRelationship`: the lookup;
* `UnorderedPairs`: the map holds unordered pairs;
* `ThreadCreationTree.countParallelThreadPairs`: the calls that the tree makes.

## Main results

* `held_addAll`: no pair is lost;
* `addAll_of_le`: the relation of a pair in the order of the addresses is that of the first call;
* `unorderedPairs_iff`: when the map holds unordered pairs;
* `ThreadCreationTree.unorderedPairs_runs_iff`: when it does after runs of
  `countParallelThreadPairs`.
-/

namespace Lace

/-! ### The map -/

/-- A call of `addParallelThreadPairs`. -/
structure PairCall where
  /-- `thread1`. -/
  thread1 : ThreadId
  /-- `thread2`. -/
  thread2 : ThreadId
  /-- `relation`. -/
  relation : String
  deriving DecidableEq, Repr

/-- `parallelThreadPairs`. -/
abbrev PairMap := ThreadId × ThreadId → Option String

/-- `ThreadCreationTree::addParallelThreadPairs`, with the addresses of the threads. -/
def addParallelThreadPairs (address : ThreadId ↪ ℕ) (m : PairMap) (c : PairCall) : PairMap :=
  let key := if address c.thread1 ≤ address c.thread2 then (c.thread1, c.thread2)
    else (c.thread2, c.thread1)
  if (m key).isSome then m
  else Function.update m (c.thread1, c.thread2) (some c.relation)

/-- The map after a sequence of calls. -/
def addAll (address : ThreadId ↪ ℕ) (calls : List PairCall) : PairMap :=
  calls.foldl (addParallelThreadPairs address) fun _ => none

/-- The search of `getThreadRelationship`. -/
def findThreadRelationship (m : PairMap) (t1 t2 : ThreadId) : Option String := m (t1, t2)

/-- `ThreadCreationTree::getThreadRelationship`: what is known about two threads, as a text. -/
def getThreadRelationship (m : PairMap) (t1 t2 : ThreadId) : String :=
  (findThreadRelationship m t1 t2).getD "No relationship found"

/-- The call is about these two threads. -/
def PairCall.IsFor (c : PairCall) (t1 t2 : ThreadId) : Prop :=
  c.thread1 = t1 ∧ c.thread2 = t2 ∨ c.thread1 = t2 ∧ c.thread2 = t1

instance (c : PairCall) (t1 t2 : ThreadId) : Decidable (c.IsFor t1 t2) :=
  inferInstanceAs (Decidable (_ ∨ _))

/-- The relation of the first call for two threads. -/
def firstRelation (calls : List PairCall) (t1 t2 : ThreadId) : Option String :=
  (calls.find? fun c => c.IsFor t1 t2).map PairCall.relation

/-- The map holds unordered pairs with their first relations, which are found in both orders. -/
structure UnorderedPairs (calls : List PairCall) (m : PairMap) : Prop where
  /-- A pair is not held in both orders. -/
  unique : ∀ t1 t2, t1 ≠ t2 → (m (t1, t2)).isSome = true → m (t2, t1) = none
  /-- What is held is the relation of the first call. -/
  first : ∀ t1 t2 relation, m (t1, t2) = some relation →
    firstRelation calls t1 t2 = some relation
  /-- It is found in both orders. -/
  found : ∀ t1 t2 relation, firstRelation calls t1 t2 = some relation →
    findThreadRelationship m t1 t2 = some relation ∧
      findThreadRelationship m t2 t1 = some relation

variable {address : ThreadId ↪ ℕ} {m : PairMap} {calls : List PairCall} {c : PairCall}
  {t t1 t2 : ThreadId} {k : ThreadId × ThreadId}

/-- A call leaves the map alone or sets the entry of its threads in their order. -/
theorem addParallelThreadPairs_eq (address : ThreadId ↪ ℕ) (m : PairMap) (c : PairCall) :
    addParallelThreadPairs address m c = m ∨ addParallelThreadPairs address m c =
      Function.update m (c.thread1, c.thread2) (some c.relation) := by
  rw [addParallelThreadPairs]
  exact ite_eq_or_eq _ _ _

/-- No call removes an entry. -/
theorem isSome_addParallelThreadPairs (h : (m k).isSome = true) :
    (addParallelThreadPairs address m c k).isSome = true := by
  rcases addParallelThreadPairs_eq address m c with heq | heq
  · rwa [heq]
  · rw [heq, Function.update_apply]
    split_ifs
    · rfl
    · exact h

theorem isSome_foldl (h : (m k).isSome = true) :
    (calls.foldl (addParallelThreadPairs address) m k).isSome = true := by
  induction calls generalizing m with
  | nil => exact h
  | cons c calls ih => exact ih (isSome_addParallelThreadPairs h)

/-- After a call the pair is held in one of the orders. -/
theorem held_addParallelThreadPairs :
    (addParallelThreadPairs address m c (c.thread1, c.thread2)).isSome = true ∨
      (addParallelThreadPairs address m c (c.thread2, c.thread1)).isSome = true := by
  rw [addParallelThreadPairs]
  split_ifs with hle hheld
  · exact Or.inl hheld
  · exact Or.inl (by rw [Function.update_self]; rfl)
  · rename_i hheld
    exact Or.inr hheld
  · exact Or.inl (by rw [Function.update_self]; rfl)

/-- So it is after all calls. -/
theorem held_addAll (hc : c ∈ calls) :
    (addAll address calls (c.thread1, c.thread2)).isSome = true ∨
      (addAll address calls (c.thread2, c.thread1)).isSome = true := by
  obtain ⟨before, after, rfl⟩ := List.append_of_mem hc
  rw [addAll, List.foldl_append, List.foldl_cons]
  exact held_addParallelThreadPairs.imp isSome_foldl isSome_foldl

/-- A call changes no entry but that of its threads in their order. -/
theorem addParallelThreadPairs_of_not (hc : ¬(c.thread1 = t1 ∧ c.thread2 = t2)) :
    addParallelThreadPairs address m c (t1, t2) = m (t1, t2) := by
  have hne : (t1, t2) ≠ (c.thread1, c.thread2) := fun h =>
    hc ⟨(Prod.mk.inj h).1.symm, (Prod.mk.inj h).2.symm⟩
  rcases addParallelThreadPairs_eq address m c with heq | heq
  · rw [heq]
  · rw [heq]
    exact Function.update_of_ne hne _ _

/-- A call changes the entry of a pair in the order of the addresses only if there is none. -/
theorem addParallelThreadPairs_of_le (hle : address t1 ≤ address t2) :
    addParallelThreadPairs address m c (t1, t2) =
      (m (t1, t2)).or (if c.thread1 = t1 ∧ c.thread2 = t2 then some c.relation else none) := by
  by_cases hc : c.thread1 = t1 ∧ c.thread2 = t2
  · rw [if_pos hc]
    obtain ⟨rfl, rfl⟩ := hc
    rw [addParallelThreadPairs, if_pos hle]
    cases hm : m (c.thread1, c.thread2) with
    | none =>
      rw [Option.none_or]
      exact Function.update_self _ _ _
    | some relation => exact hm
  · rw [if_neg hc, Option.or_none]
    exact addParallelThreadPairs_of_not hc

/-- The relation of a pair in the order of the addresses is that of the first call in this
order. -/
theorem addAll_of_le (hle : address t1 ≤ address t2) : addAll address calls (t1, t2) =
    (calls.find? fun c => c.thread1 = t1 ∧ c.thread2 = t2).map PairCall.relation := by
  have hfold : ∀ m : PairMap, calls.foldl (addParallelThreadPairs address) m (t1, t2) =
      (m (t1, t2)).or
        ((calls.find? fun c => c.thread1 = t1 ∧ c.thread2 = t2).map PairCall.relation) := by
    induction calls with
    | nil => simp
    | cons c calls ih =>
      intro m
      rw [List.foldl_cons, ih, addParallelThreadPairs_of_le hle, Option.or_assoc, List.find?_cons]
      by_cases hc : c.thread1 = t1 ∧ c.thread2 = t2 <;> simp [hc]
  exact hfold _

/-- Nothing else is held than what was called for. -/
theorem exists_call_of_held (h : (addAll address calls (t1, t2)).isSome = true) :
    ∃ c ∈ calls, c.thread1 = t1 ∧ c.thread2 = t2 := by
  by_contra hnot
  have hfold : ∀ (l : List PairCall), (∀ c ∈ l, ¬(c.thread1 = t1 ∧ c.thread2 = t2)) →
      ∀ m : PairMap, l.foldl (addParallelThreadPairs address) m (t1, t2) = m (t1, t2) := by
    intro l
    induction l with
    | nil => exact fun _ m => rfl
    | cons c l ih =>
      intro hl m
      obtain ⟨hc, hl⟩ := List.forall_mem_cons.mp hl
      rw [List.foldl_cons, ih hl, addParallelThreadPairs_of_not hc]
  rw [addAll, hfold calls fun c hc heq => hnot ⟨c, hc, heq⟩] at h
  cases h

/-! ### Unordered pairs -/

/-- A call with two different threads breaks the pairs: a pair that is found in both orders is held
in both orders. -/
theorem UnorderedPairs.eq (h : UnorderedPairs calls (addAll address calls)) (hc : c ∈ calls) :
    c.thread1 = c.thread2 := by
  by_contra hne
  obtain ⟨relation, hrelation⟩ : ∃ relation,
      firstRelation calls c.thread1 c.thread2 = some relation := by
    rw [← Option.isSome_iff_exists, firstRelation, Option.isSome_map, List.find?_isSome]
    exact ⟨c, hc, decide_eq_true (Or.inl ⟨rfl, rfl⟩)⟩
  obtain ⟨h12, h21⟩ := h.found _ _ _ hrelation
  have hnone := h.unique _ _ hne (Option.isSome_of_eq_some h12)
  rw [findThreadRelationship, hnone] at h21
  cases h21

/-- Calls with a thread and itself keep them. -/
theorem unorderedPairs_of_eq (h : ∀ c ∈ calls, c.thread1 = c.thread2) :
    UnorderedPairs calls (addAll address calls) := by
  have hself : ∀ t, addAll address calls (t, t) = firstRelation calls t t := by
    intro t
    rw [addAll_of_le le_rfl, firstRelation]
    simp only [PairCall.IsFor, or_self]
  have hheld : ∀ t1 t2, (addAll address calls (t1, t2)).isSome = true → t1 = t2 := by
    intro t1 t2 hsome
    obtain ⟨c, hc, rfl, rfl⟩ := exists_call_of_held hsome
    exact h c hc
  refine ⟨fun t1 t2 hne hsome => absurd (hheld t1 t2 hsome) hne, fun t1 t2 relation hm => ?_,
    fun t1 t2 relation hfirst => ?_⟩
  · obtain rfl := hheld t1 t2 (Option.isSome_of_eq_some hm)
    rw [← hself, hm]
  · obtain ⟨c, hfind, -⟩ := Option.map_eq_some_iff.mp hfirst
    have hfor := List.find?_some hfind
    have hc := h c (List.mem_of_find?_eq_some hfind)
    obtain rfl : t1 = t2 := by
      rcases of_decide_eq_true hfor with ⟨rfl, rfl⟩ | ⟨rfl, rfl⟩
      · exact hc
      · exact hc.symm
    exact ⟨(hself t1).trans hfirst, (hself t1).trans hfirst⟩

/-- **The map holds unordered pairs** exactly if no call has two different threads. -/
theorem unorderedPairs_iff (address : ThreadId ↪ ℕ) (calls : List PairCall) :
    UnorderedPairs calls (addAll address calls) ↔ ∀ c ∈ calls, c.thread1 = c.thread2 :=
  ⟨fun h _ hc => h.eq hc, unorderedPairs_of_eq⟩

/-- One call is enough: the pair is not found in the other order. -/
theorem descendant_not_unorderedPairs : ¬UnorderedPairs [⟨1, 0, "descendant"⟩]
    (addAll (Function.Embedding.refl ℕ) [⟨1, 0, "descendant"⟩]) := by
  intro h
  have hfound := (h.found 1 0 "descendant" (by decide)).2
  exact absurd hfound (by decide)

/-! ### The calls of the tree -/

namespace ThreadCreationTree

variable (T : ThreadCreationTree)

/-- `isIndirectSibling`: a common ancestor, whose name is smaller than those of both threads. -/
def isIndirectSibling (t1 t2 : ThreadId) : Bool :=
  (List.range t1).any fun p => T.isDescendant t1 p && T.isDescendant t2 p

/-- The call that `countParallelThreadPairs` makes for two threads. Whether the forks of siblings
are on different branches is taken from `isSibling`. -/
def relationCall (isSibling : ThreadId → ThreadId → Bool) (t1 t2 : ThreadId) : Option PairCall :=
  if T.isDescendant t1 t2 then some ⟨t1, t2, "descendant"⟩
  else if T.isDescendant t2 t1 then some ⟨t2, t1, "descendant"⟩
  else if (T.parent t1).isSome && T.parent t1 = T.parent t2 then
    some ⟨t1, t2, if isSibling t1 t2 then "sibling" else "indirect sibling"⟩
  else if T.isIndirectSibling t1 t2 then some ⟨t1, t2, "indirect sibling"⟩
  else none

/-- `countParallelThreadPairs`: the calls for a vector of the threads. -/
def countParallelThreadPairs (isSibling : ThreadId → ThreadId → Bool) :
    List ThreadId → List PairCall
  | [] => []
  | t :: ts => ts.filterMap (T.relationCall isSibling t) ++ countParallelThreadPairs isSibling ts

variable {T} {isSibling : ThreadId → ThreadId → Bool}

/-- A call is about the two threads it is made for. -/
theorem isFor_of_relationCall (h : T.relationCall isSibling t1 t2 = some c) : c.IsFor t1 t2 := by
  rw [relationCall] at h
  split_ifs at h
  all_goals
    obtain rfl := Option.some.inj h
  · exact Or.inl ⟨rfl, rfl⟩
  · exact Or.inr ⟨rfl, rfl⟩
  · exact Or.inl ⟨rfl, rfl⟩
  · exact Or.inl ⟨rfl, rfl⟩
  · exact Or.inl ⟨rfl, rfl⟩

/-- The tree makes calls with different threads only. -/
theorem ne_of_mem_countParallelThreadPairs {threads : List ThreadId} (hnodup : threads.Nodup)
    (h : c ∈ T.countParallelThreadPairs isSibling threads) : c.thread1 ≠ c.thread2 := by
  induction threads with
  | nil => cases h
  | cons t ts ih =>
    obtain ⟨ht, hts⟩ := List.nodup_cons.mp hnodup
    rcases List.mem_append.mp h with h | h
    · obtain ⟨u, hu, hcall⟩ := List.mem_filterMap.mp h
      have hne : t ≠ u := fun heq => ht (heq ▸ hu)
      rcases isFor_of_relationCall hcall with ⟨h1, h2⟩ | ⟨h1, h2⟩
      · rwa [h1, h2]
      · rw [h1, h2]
        exact hne.symm
    · exact ih hts h

/-- After runs of `countParallelThreadPairs`, in any orders of the threads, the map holds unordered
pairs only if it is empty. -/
theorem unorderedPairs_runs_iff {runs : List (List ThreadId)}
    (hruns : ∀ threads ∈ runs, threads.Nodup) :
    UnorderedPairs (runs.flatMap (T.countParallelThreadPairs isSibling))
        (addAll address (runs.flatMap (T.countParallelThreadPairs isSibling))) ↔
      runs.flatMap (T.countParallelThreadPairs isSibling) = [] := by
  constructor
  · intro h
    refine List.eq_nil_iff_forall_not_mem.mpr fun c hc => ?_
    obtain ⟨threads, hthreads, hcall⟩ := List.mem_flatMap.mp hc
    exact ne_of_mem_countParallelThreadPairs (hruns threads hthreads) hcall (h.eq hc)
  · intro h
    exact unorderedPairs_of_eq fun c hc => absurd (h ▸ hc) List.not_mem_nil

end ThreadCreationTree

end Lace
