import Lace.Library.Search

/-!
# Breadth-first search that returns the path

The steps have labels, and the queue holds with each state the labels of the path it was entered by.
The loop is the one of `SearchProblem.search`, with the length of the path as the depth, so that
it finds a goal whenever that search does; what it returns are the labels of a shortest path.

## Main definitions

* `PathProblem`: a search problem with labelled steps;
* `PathProblem.search`: the loop;
* `PathProblem.Path`: the labelled paths.

## Main results

* `PathProblem.searchFrom_eq_some`: what is found is a path within the cap, and none is shorter;
* `PathProblem.searchFrom_isSome_iff`: something is found exactly if a path is within the cap.
-/

namespace Lace.Library

variable {σ ε : Type*}

/-- A search problem over the states `σ`, with labels `ε` on the steps. -/
structure PathProblem (σ ε : Type*) where
  /-- The steps from a state, in the order they are scanned. -/
  next : σ → List (ε × σ)
  /-- Scanning a goal ends the search. -/
  goal : σ → Bool
  /-- States at the end of a path of this length are not expanded. -/
  cap : ℕ

namespace PathProblem

variable (P : PathProblem σ ε)

/-- The problem without the labels. -/
def forget : SearchProblem σ where
  next s := (P.next s).map Prod.snd
  goal := P.goal
  keep _ := true
  cap := some P.cap

/-- A queued state with its depth instead of its path. -/
def depth (x : σ × List ε) : σ × ℕ := (x.1, x.2.length)

/-- The paths from a state, by their labels. -/
inductive Path (s : σ) : List ε → σ → Prop
  | nil : Path s [] s
  | concat {p : List ε} {t u : σ} {e : ε} : Path s p t → (e, u) ∈ P.next t → Path s (p ++ [e]) u

/-- Scan the steps from a state that was entered by `p`: the path to a goal, or the queue and the
visited list afterwards. -/
def scan [DecidableEq σ] (p : List ε) :
    List (ε × σ) → List (σ × List ε) → List σ → List ε ⊕ List (σ × List ε) × List σ
  | [], q, vis => .inr (q, vis)
  | (e, t) :: ts, q, vis =>
      if P.goal t then .inl (p ++ [e])
      else if t ∉ vis then scan p ts (q ++ [(t, p ++ [e])]) (t :: vis)
      else scan p ts q vis

/-- The queue loop. `fuel` bounds the number of states popped. -/
def search [DecidableEq σ] : ℕ → List (σ × List ε) → List σ → Option (List ε)
  | 0, _, _ => none
  | _ + 1, [], _ => none
  | fuel + 1, (s, p) :: q, vis =>
      if p.length < P.cap then
        match P.scan p (P.next s) q vis with
        | .inl r => some r
        | .inr (q', vis') => search fuel q' vis'
      else search fuel q vis

/-- The search from a start state. -/
def searchFrom [DecidableEq σ] (fuel : ℕ) (start : σ) : Option (List ε) :=
  P.search fuel [(start, [])] [start]

variable {P} {start s t u : σ} {p r : List ε} {q q' : List (σ × List ε)} {vis vis' : List σ}
  {fuel : ℕ}

/-! ### Paths -/

/-- A path is a chain of steps of its length. -/
theorem Path.steps (h : P.Path s p t) : Steps P.forget.Entered s p.length t := by
  induction h with
  | nil => exact .refl
  | @concat p t u e _ hstep ih =>
    rw [List.length_append]
    exact ih.tail ⟨List.mem_map_of_mem hstep, rfl⟩

/-- A chain of steps has labels. -/
theorem exists_path {n : ℕ} (h : Steps P.forget.Entered s n t) :
    ∃ p, P.Path s p t ∧ p.length = n := by
  induction h with
  | refl => exact ⟨[], .nil, rfl⟩
  | tail _ hstep ih =>
    obtain ⟨p, hp, hlen⟩ := ih
    obtain ⟨⟨e, u⟩, hmem, rfl⟩ := List.mem_map.mp hstep.1
    exact ⟨p ++ [e], hp.concat hmem, by rw [List.length_append, hlen]; rfl⟩

/-- The path without steps leads nowhere else. -/
theorem Path.eq_of_nil (h : P.Path s [] t) : s = t := by
  generalize hp : ([] : List ε) = p at h
  cases h with
  | nil => rfl
  | concat _ _ => simp at hp

variable [DecidableEq σ]

/-! ### The search without the labels -/

/-- The scan is the one without the labels. -/
theorem scan_forget (ts : List (ε × σ)) (q : List (σ × List ε)) (vis : List σ) :
    P.forget.scan p.length (ts.map Prod.snd) (q.map depth) vis =
      (P.scan p ts q vis).elim (fun _ => none) fun r => some (r.1.map depth, r.2) := by
  induction ts generalizing q vis with
  | nil => rfl
  | cons x ts ih =>
    obtain ⟨e, t⟩ := x
    rw [List.map_cons, SearchProblem.scan, scan]
    by_cases hgoal : P.goal t = true
    · simp [forget, hgoal]
    rw [if_neg hgoal, if_neg (show ¬P.forget.goal t = true from hgoal)]
    by_cases hvis : t ∈ vis
    · simp [forget, hvis, ← ih]
    · -- The fresh state is queued with the same depth on both sides.
      have hqueue : (q ++ [(t, p ++ [e])]).map depth = q.map depth ++ [(t, p.length + 1)] := by
        simp [depth]
      -- Both searches mark the state as visited.
      rw [if_pos hvis, ← ih, hqueue]
      simp [forget, hvis]

/-- The search finds something exactly if the one without the labels does. -/
theorem search_forget (fuel : ℕ) (q : List (σ × List ε)) (vis : List σ) :
    P.forget.search fuel (q.map depth) vis = (P.search fuel q vis).isSome := by
  induction fuel generalizing q vis with
  | zero => rfl
  | succ fuel ih =>
    match q with
    | [] => rfl
    | (s, p) :: q =>
      have hexp : P.forget.expands p.length = decide (p.length < P.cap) := rfl
      rw [List.map_cons, depth, SearchProblem.search, search, hexp]
      -- Both loops expand the state, or both pass over it.
      by_cases hlt : p.length < P.cap
      · rw [if_pos (by simpa using hlt), if_pos hlt,
          show P.forget.next s = (P.next s).map Prod.snd from rfl, scan_forget]
        cases P.scan p (P.next s) q vis with
        | inl r => rfl
        | inr r => exact ih r.1 r.2
      · rw [if_neg (by simpa using hlt), if_neg hlt]
        exact ih q vis

/-! ### What is found -/

variable (vis) in
/-- What a scan finds ends at a goal, and what it queues are paths. -/
theorem scan_path {ts : List (ε × σ)} (hs : P.Path start p s) (hts : ∀ x ∈ ts, x ∈ P.next s)
    (hq : ∀ x ∈ q, P.Path start x.2 x.1) :
    (P.scan p ts q vis).elim (fun r => r.length = p.length + 1 ∧ ∃ t, P.goal t = true ∧
      P.Path start r t) fun r => ∀ x ∈ r.1, P.Path start x.2 x.1 := by
  induction ts generalizing q vis with
  | nil => exact hq
  | cons x ts ih =>
    obtain ⟨e, t⟩ := x
    have ht : P.Path start (p ++ [e]) t := hs.concat (hts _ List.mem_cons_self)
    have hrest : ∀ x ∈ ts, x ∈ P.next s := fun x hx => hts x (List.mem_cons_of_mem _ hx)
    rw [scan]
    split_ifs with hgoal hvis
    · exact ⟨by rw [List.length_append]; rfl, t, hgoal, ht⟩
    · exact ih _ hrest hq
    · refine ih _ hrest fun x hx => ?_
      -- The path that is queued has one more step.
      obtain hx | hx := List.mem_append.mp hx
      · exact hq x hx
      · rw [List.mem_singleton.mp hx]
        exact ht

omit [DecidableEq σ] in
/-- The popped state has the least depth of the queue, so a path to a goal that is no longer has been
scanned. -/
theorem depth_lt_of_goal {D : σ → ℕ}
    (hinv : P.forget.LoopInv start (((s, p) :: q).map depth) vis D) (hcap : p.length < P.cap)
    {r' : List ε} {t : σ} (hr' : P.Path start r' t) (ht : P.goal t = true) (hne : r' ≠ []) :
    p.length < r'.length := by
  by_contra hshort
  cases hr' with
  | nil => exact hne rfl
  | @concat p' u _ e hp' hstep =>
    rw [List.length_append, List.length_singleton, Nat.not_lt] at hshort
    -- The path ends at a state that every queued one is deeper than.
    have hbelow : ∀ x ∈ ((s, p) :: q).map depth, p'.length < x.2 := by
      intro x hx
      have hle : p.length ≤ x.2 := by
        obtain rfl | hx := List.mem_cons.mp hx
        · exact le_rfl
        · exact (List.pairwise_cons.mp hinv.sorted).1 x hx
      omega
    have hexp : P.forget.expands p'.length = true := by
      show decide (p'.length < P.cap) = true
      exact decide_eq_true (by omega)
    have hno := hinv.no_goal_below hbelow hp'.steps hexp (List.mem_map_of_mem hstep)
    rw [show P.forget.goal t = P.goal t from rfl, ht] at hno
    cases hno

/-- The search returns a path to a goal, and no path to a goal is shorter. -/
theorem search_eq_some {D : σ → ℕ} (hq : ∀ x ∈ q, P.Path start x.2 x.1)
    (hinv : P.forget.LoopInv start (q.map depth) vis D) (h : P.search fuel q vis = some r) :
    r.length ≤ P.cap ∧ (∃ t, P.goal t = true ∧ P.Path start r t) ∧
      ∀ r' t, P.Path start r' t → P.goal t = true → r' ≠ [] → r.length ≤ r'.length := by
  -- The invariant is that of the search without the labels; the paths are carried along.
  induction fuel generalizing q vis D with
  | zero => cases h
  | succ fuel ih =>
    match q with
    | [] => cases h
    | (s, p) :: q =>
      have hs : P.Path start p s := hq _ List.mem_cons_self
      have hq' : ∀ x ∈ q, P.Path start x.2 x.1 := fun x hx => hq x (List.mem_cons_of_mem _ hx)
      rw [search] at h
      split_ifs at h with hlt
      · have hpath := scan_path vis hs (fun _ hx => hx) hq'
        cases hscan : P.scan p (P.next s) q vis with
        | inr x =>
          rw [hscan] at h hpath
          have hforget := scan_forget (P := P) (p := p) (P.next s) q vis
          rw [hscan] at hforget
          obtain ⟨D', hinv'⟩ := SearchProblem.LoopInv.scan hinv hforget
          exact ih hpath hinv' h
        | inl r =>
          rw [hscan] at h hpath
          cases h
          obtain ⟨hlen, hgoal⟩ := hpath
          refine ⟨hlen.trans_le hlt, hgoal, fun r' t hr' ht hne => ?_⟩
          rw [hlen]
          exact depth_lt_of_goal hinv hlt hr' ht hne
      · -- A state at the cap is dropped.
        refine ih hq' (hinv.pop ?_) h
        show decide (p.length < P.cap) = false
        exact decide_eq_false hlt

/-- From a start that is no goal, the search returns a shortest path to a goal. -/
theorem searchFrom_eq_some (hstart : P.goal start = false)
    (h : P.searchFrom fuel start = some r) :
    r.length ≤ P.cap ∧ (∃ t, P.goal t = true ∧ P.Path start r t) ∧
      ∀ r' t, P.Path start r' t → P.goal t = true → r.length ≤ r'.length := by
  have hinv : P.forget.LoopInv start ([(start, ([] : List ε))].map depth) [start] fun _ => 0 := by
    constructor <;> simp [depth]
  have hq : ∀ x ∈ [(start, ([] : List ε))], P.Path start x.2 x.1 := fun x hx => by
    rw [List.mem_singleton.mp hx]
    exact .nil
  obtain ⟨hcap, hgoal, hmin⟩ := search_eq_some hq hinv h
  refine ⟨hcap, hgoal, fun r' t hr' ht => hmin r' t hr' ht ?_⟩
  rintro rfl
  rw [← hr'.eq_of_nil, hstart] at ht
  cases ht

/-- With enough fuel, something is found exactly if a path within the cap leads to a goal. -/
theorem searchFrom_isSome_iff (hstart : P.goal start = false) (U : Finset σ)
    (hU : ∀ s, ∀ x ∈ P.next s, x.2 ∈ U) (hfuel : U.card + 1 < fuel) :
    (P.searchFrom fuel start).isSome = true ↔
      ∃ r t, P.Path start r t ∧ P.goal t = true ∧ r.length ≤ P.cap := by
  have hforget : P.forget.searchFrom fuel start = (P.searchFrom fuel start).isSome :=
    search_forget fuel [(start, [])] [start]
  have hU' : ∀ s, ∀ t ∈ P.forget.next s, P.forget.keep t = true → t ∈ U := by
    intro s t ht _
    obtain ⟨x, hx, rfl⟩ := List.mem_map.mp ht
    exact hU s x hx
  rw [← hforget, SearchProblem.search_eq_true_iff U hU' hfuel]
  constructor
  · -- The steps can be labelled, and the last one ends at the goal.
    rintro ⟨n, s, t, hsteps, hexp, ht, hgoal⟩
    obtain ⟨r, hr, hlen⟩ := exists_path (hsteps.tail ⟨ht, rfl⟩)
    exact ⟨r, t, hr, hgoal, hlen.trans_le (of_decide_eq_true hexp)⟩
  · rintro ⟨r, t, hr, hgoal, hlen⟩
    -- A path that is not empty has a last step, from a state within the cap.
    cases hr with
    | nil => rw [hstart] at hgoal; cases hgoal
    | @concat p u _ e hp hstep =>
      rw [List.length_append] at hlen
      exact ⟨p.length, u, t, hp.steps, decide_eq_true hlen, List.mem_map_of_mem hstep, hgoal⟩

end PathProblem

end Lace.Library
