import Mathlib.Data.List.Nodup
import Lace.Library.Steps
import Lace.Library.Worklist

/-!
# Breadth-first search with a visited set and a depth cap

A search problem gives the successors of a state, which of them are goals, which of them may
be entered, and how deep states are still expanded. `SearchProblem.search` is the usual queue
loop: a goal is recognised when an edge to it is scanned, a state is marked visited when it is
queued, and a popped state at or beyond the cap is not expanded.

The visited set makes the loop terminate but never hides a goal: states are popped in order of
their depth, so the depth a state is queued with is the least possible one.

## Main results

* `SearchProblem.search_eq_true_iff`: with enough fuel the loop answers `true` exactly when a
  goal is a successor of a state that is reached by fewer entered steps than the cap;
* `SearchProblem.search_uncapped_iff`: the same without a cap, in terms of
  `Relation.ReflTransGen`;
* `SearchProblem.search_target_iff`: the same for the search for one state.
-/

namespace Lace.Library

/-- A search problem over the states `σ`. -/
structure SearchProblem (σ : Type*) where
  /-- The successors of a state, in the order they are scanned. -/
  next : σ → List σ
  /-- Scanning a goal ends the search. -/
  goal : σ → Bool
  /-- Only kept states are entered. -/
  keep : σ → Bool
  /-- States at this depth or beyond are not expanded; `none` puts no cap. -/
  cap : Option ℕ

namespace SearchProblem

variable {σ : Type*} (P : SearchProblem σ)

/-- Whether a state popped at depth `d` is expanded. -/
def expands (d : ℕ) : Bool := P.cap.all (d < ·)

/-- One entered step. -/
def Entered (s t : σ) : Prop := t ∈ P.next s ∧ P.keep t = true

/-- Expansion is downward closed in the depth. -/
theorem expands_of_le {d e : ℕ} (hde : d ≤ e) (he : P.expands e = true) :
    P.expands d = true := by
  unfold expands at *
  cases hcap : P.cap with
  | none => rfl
  | some c =>
      rw [hcap] at he
      simp only [Option.all_some, decide_eq_true_eq] at he ⊢
      omega

variable [DecidableEq σ]

/-- Scan the successors of a state popped at depth `d`: `none` when one of them is a goal,
otherwise the queue and the visited list after entering the fresh ones. -/
def scan (d : ℕ) : List σ → List (σ × ℕ) → List σ → Option (List (σ × ℕ) × List σ)
  | [], q, vis => some (q, vis)
  | t :: ts, q, vis =>
      if P.goal t then none
      else if P.keep t && decide (t ∉ vis) then scan d ts (q ++ [(t, d + 1)]) (t :: vis)
      else scan d ts q vis

/-- The queue loop. `fuel` bounds the number of states popped. -/
def search : ℕ → List (σ × ℕ) → List σ → Bool
  | 0, _, _ => false
  | _ + 1, [], _ => false
  | fuel + 1, (s, d) :: q, vis =>
      if P.expands d then
        match P.scan d (P.next s) q vis with
        | none => true
        | some (q', vis') => search fuel q' vis'
      else search fuel q vis

/-- The search from a start state. -/
def searchFrom (fuel : ℕ) (start : σ) : Bool := P.search fuel [(start, 0)] [start]

/-! ### One scan -/

theorem scan_eq_none_iff (d : ℕ) (ts : List σ) (q : List (σ × ℕ)) (vis : List σ) :
    P.scan d ts q vis = none ↔ ∃ t ∈ ts, P.goal t = true := by
  induction ts generalizing q vis with
  | nil => simp [scan]
  | cons t ts ih =>
      unfold scan
      by_cases hgoal : P.goal t = true
      · simp [hgoal]
      · rw [if_neg hgoal]
        split_ifs <;> simp [ih, hgoal]

/-- What a scan that meets no goal has done: it queued some fresh kept successors, each once,
and every kept successor is visited afterwards. -/
theorem scan_eq_some {d : ℕ} {ts : List σ} {q q' : List (σ × ℕ)} {vis vis' : List σ}
    (h : P.scan d ts q vis = some (q', vis')) :
    ∃ new : List σ, q' = q ++ new.map (·, d + 1) ∧ vis' = new.reverse ++ vis ∧ new.Nodup ∧
      (∀ t ∈ new, t ∈ ts ∧ P.keep t = true ∧ t ∉ vis) ∧
      ∀ t ∈ ts, P.goal t = false ∧ (P.keep t = true → t ∈ vis') := by
  induction ts generalizing q vis with
  | nil =>
      simp only [scan, Option.some.injEq, Prod.mk.injEq] at h
      obtain ⟨rfl, rfl⟩ := h
      exact ⟨[], by simp⟩
  | cons t ts ih =>
      unfold scan at h
      by_cases hgoal : P.goal t = true
      · simp [hgoal] at h
      have hgoal' : P.goal t = false := by simpa using hgoal
      rw [if_neg hgoal] at h
      split_ifs at h with hfresh
      · -- `t` is fresh: it heads the list of newly queued states
        have hkeep : P.keep t = true ∧ t ∉ vis := by simpa using hfresh
        obtain ⟨new, hq, hvis, hnodup, hnew, hall⟩ := ih h
        refine ⟨t :: new, by simp [hq], by simp [hvis], ?_, ?_, ?_⟩
        · exact List.nodup_cons.mpr ⟨fun hmem => (hnew t hmem).2.2 (by simp), hnodup⟩
        · intro u hu
          rcases List.mem_cons.mp hu with rfl | hu
          · exact ⟨by simp, hkeep⟩
          · obtain ⟨h1, h2, h3⟩ := hnew u hu
            exact ⟨List.mem_cons_of_mem _ h1, h2, fun hmem => h3 (by simp [hmem])⟩
        · intro u hu
          rcases List.mem_cons.mp hu with rfl | hu
          · exact ⟨hgoal', fun _ => by simp [hvis]⟩
          · exact hall u hu
      · obtain ⟨new, hq, hvis, hnodup, hnew, hall⟩ := ih h
        refine ⟨new, hq, hvis, hnodup, ?_, ?_⟩
        · intro u hu
          exact ⟨List.mem_cons_of_mem _ (hnew u hu).1, (hnew u hu).2⟩
        · intro u hu
          rcases List.mem_cons.mp hu with rfl | hu
          · refine ⟨hgoal', fun hkeep => ?_⟩
            have hvisited : u ∈ vis := by simpa [hkeep] using hfresh
            simp [hvis, hvisited]
          · exact hall u hu

/-! ### Soundness -/

/-- Everything the loop finds is a successor of a state within the cap. -/
theorem search_sound (start : σ) (fuel : ℕ) (q : List (σ × ℕ)) (vis : List σ)
    (hq : ∀ p ∈ q, Steps P.Entered start p.2 p.1) (h : P.search fuel q vis = true) :
    ∃ n s t, Steps P.Entered start n s ∧ P.expands n = true ∧ t ∈ P.next s ∧
      P.goal t = true := by
  induction fuel generalizing q vis with
  | zero => simp [search] at h
  | succ fuel ih =>
      match q with
      | [] => simp [search] at h
      | (s, d) :: q =>
          have hs : Steps P.Entered start d s := hq (s, d) (by simp)
          unfold search at h
          split_ifs at h with hexp
          · cases hscan : P.scan d (P.next s) q vis with
            | none =>
                obtain ⟨t, ht, hgoal⟩ := (P.scan_eq_none_iff _ _ _ _).mp hscan
                exact ⟨d, s, t, hs, hexp, ht, hgoal⟩
            | some r =>
                obtain ⟨q', vis'⟩ := r
                rw [hscan] at h
                obtain ⟨new, rfl, -, -, hnew, -⟩ := P.scan_eq_some hscan
                refine ih _ _ (fun p hp => ?_) h
                -- A state on the queue was there before, or is entered from `s`.
                rcases List.mem_append.mp hp with hp | hp
                · exact hq p (List.mem_cons_of_mem _ hp)
                · obtain ⟨t, ht, rfl⟩ := List.mem_map.mp hp
                  exact hs.tail ⟨(hnew t ht).1, (hnew t ht).2.1⟩
          · exact ih _ _ (fun p hp => hq p (List.mem_cons_of_mem _ hp)) h

/-! ### Completeness

The invariant carries a ghost function `D`, the depth each visited state was queued with. -/

/-- The loop invariant. Queued states wait in order of depth, no visited state is more than one
level past a queued one, and a visited state that has left the queue below the cap has had all
its successors scanned. -/
structure LoopInv (start : σ) (q : List (σ × ℕ)) (vis : List σ) (D : σ → ℕ) : Prop where
  start_visited : start ∈ vis
  start_depth : D start = 0
  queued : ∀ p ∈ q, p.1 ∈ vis ∧ D p.1 = p.2
  sorted : q.Pairwise fun p p' => p.2 ≤ p'.2
  near : ∀ s ∈ vis, ∀ p ∈ q, D s ≤ p.2 + 1
  closed : ∀ s ∈ vis, (s, D s) ∉ q → P.expands (D s) = true → ∀ t ∈ P.next s,
    P.goal t = false ∧ (P.keep t = true → t ∈ vis ∧ D t ≤ D s + 1)

variable {P} {start : σ} {q q' : List (σ × ℕ)} {vis vis' : List σ} {D : σ → ℕ} {s : σ} {d : ℕ}

omit [DecidableEq σ] in
/-- Dropping a popped state that is not expanded keeps the invariant. -/
theorem LoopInv.pop (hinv : P.LoopInv start ((s, d) :: q) vis D)
    (hexp : P.expands d = false) : P.LoopInv start q vis D where
  start_visited := hinv.start_visited
  start_depth := hinv.start_depth
  queued p hp := hinv.queued p (List.mem_cons_of_mem _ hp)
  sorted := hinv.sorted.of_cons
  near u hu p hp := hinv.near u hu p (List.mem_cons_of_mem _ hp)
  closed u hu hnot hexpu t ht := by
    refine hinv.closed u hu (fun hmem => ?_) hexpu t ht
    rcases List.mem_cons.mp hmem with heq | hmem
    · rw [(Prod.mk.inj heq).2, hexp] at hexpu
      cases hexpu
    · exact hnot hmem

/-- The depths after a scan: fresh states are one level below the popped one, and the others stay
where they are. -/
def deepen (d : ℕ) (new : List σ) (D : σ → ℕ) (u : σ) : ℕ := if u ∈ new then d + 1 else D u

theorem deepen_of_mem {new : List σ} {u : σ} (hu : u ∈ new) : deepen d new D u = d + 1 :=
  if_pos hu

theorem deepen_of_notMem {new : List σ} {u : σ} (hu : u ∉ new) : deepen d new D u = D u :=
  if_neg hu

omit [DecidableEq σ] in
/-- A state on the queue was there before the scan, or is fresh. -/
theorem mem_queue_append_iff {new : List σ} {p : σ × ℕ} :
    p ∈ q ++ new.map (·, d + 1) ↔ p ∈ q ∨ p.1 ∈ new ∧ p.2 = d + 1 := by
  simp only [List.mem_append, List.mem_map]
  refine or_congr_right ⟨?_, fun hp => ⟨p.1, hp.1, by rw [← hp.2]⟩⟩
  rintro ⟨u, hu, rfl⟩
  exact ⟨hu, rfl⟩

section Scan

variable {new : List σ}

omit [DecidableEq σ] in
/-- The visited states are no more than one level below the popped one. -/
theorem LoopInv.depth_le (hinv : P.LoopInv start ((s, d) :: q) vis D) {u : σ}
    (hu : u ∈ vis) : D u ≤ d + 1 :=
  hinv.near u hu (s, d) List.mem_cons_self

/-- The same goes for the states that are visited after the scan. -/
theorem LoopInv.deepen_le (hinv : P.LoopInv start ((s, d) :: q) vis D) {u : σ}
    (hu : u ∈ new ∨ u ∈ vis) : deepen d new D u ≤ d + 1 := by
  by_cases hnew : u ∈ new
  · exact (deepen_of_mem hnew).le
  · rw [deepen_of_notMem hnew]
    exact hinv.depth_le (hu.resolve_left hnew)

omit [DecidableEq σ] in
/-- The queue stays sorted: no queued state is deeper than the fresh ones behind it. -/
theorem LoopInv.sorted_append (hinv : P.LoopInv start ((s, d) :: q) vis D) :
    (q ++ new.map (·, d + 1)).Pairwise fun p p' => p.2 ≤ p'.2 := by
  rw [List.pairwise_append]
  refine ⟨hinv.sorted.of_cons, ?_, ?_⟩
  · exact List.pairwise_map.mpr (List.pairwise_of_forall fun _ _ => le_rfl)
  · intro p hp p' hp'
    obtain ⟨u, -, rfl⟩ := List.mem_map.mp hp'
    obtain ⟨hvisited, hdepth⟩ := hinv.queued p (List.mem_cons_of_mem _ hp)
    rw [← hdepth]
    exact hinv.depth_le hvisited

/-- The states off the queue are closed after the scan, the popped one among them. -/
theorem LoopInv.closed_scan (hinv : P.LoopInv start ((s, d) :: q) vis D)
    (hold : ∀ u ∈ vis, u ∉ new)
    (hall : ∀ t ∈ P.next s, P.goal t = false ∧ (P.keep t = true → t ∈ new ∨ t ∈ vis)) {u t : σ}
    (hu : u ∈ vis) (hnot : (u, D u) ∉ q) (hexp : P.expands (D u) = true) (ht : t ∈ P.next u) :
    P.goal t = false ∧
      (P.keep t = true → (t ∈ new ∨ t ∈ vis) ∧ deepen d new D t ≤ D u + 1) := by
  have hDs : D s = d := (hinv.queued (s, d) List.mem_cons_self).2
  by_cases hus : u = s
  · subst hus
    refine ⟨(hall t ht).1, fun hkeep => ?_⟩
    have hvisited := (hall t ht).2 hkeep
    rw [hDs]
    exact ⟨hvisited, hinv.deepen_le hvisited⟩
  · have hnot' : (u, D u) ∉ (s, d) :: q := by
      intro hmem
      rcases List.mem_cons.mp hmem with heq | hmem
      · exact hus (Prod.mk.inj heq).1
      · exact hnot hmem
    obtain ⟨hgoal, hclosed⟩ := hinv.closed u hu hnot' hexp t ht
    refine ⟨hgoal, fun hkeep => ?_⟩
    obtain ⟨htvis, hdepth⟩ := hclosed hkeep
    exact ⟨Or.inr htvis, (deepen_of_notMem (hold t htvis)).trans_le hdepth⟩

/-- Scanning the successors of a popped state keeps the invariant, with the fresh successors
one level deeper. -/
theorem LoopInv.scan (hinv : P.LoopInv start ((s, d) :: q) vis D)
    (hscan : P.scan d (P.next s) q vis = some (q', vis')) :
    ∃ D', P.LoopInv start q' vis' D' := by
  obtain ⟨new, rfl, rfl, hnodup, hnew, hall⟩ := P.scan_eq_some hscan
  have hold : ∀ u ∈ vis, u ∉ new := fun u hu hmem => (hnew u hmem).2.2 hu
  have hmem_vis : ∀ u, u ∈ new.reverse ++ vis ↔ u ∈ new ∨ u ∈ vis := by simp
  refine ⟨deepen d new D, (hmem_vis _).mpr (Or.inr hinv.start_visited), ?_, ?_,
    hinv.sorted_append, ?_, ?_⟩
  · rw [deepen_of_notMem (hold _ hinv.start_visited), hinv.start_depth]
  · intro p hp
    rcases mem_queue_append_iff.mp hp with hp | ⟨hp, hp2⟩
    · obtain ⟨h1, h2⟩ := hinv.queued p (List.mem_cons_of_mem _ hp)
      exact ⟨(hmem_vis _).mpr (Or.inr h1), (deepen_of_notMem (hold _ h1)).trans h2⟩
    · exact ⟨(hmem_vis _).mpr (Or.inl hp), (deepen_of_mem hp).trans hp2.symm⟩
  · intro u hu p hp
    have hdp : d ≤ p.2 := by
      rcases mem_queue_append_iff.mp hp with hp | ⟨-, hp2⟩
      · exact (List.pairwise_cons.mp hinv.sorted).1 p hp
      · omega
    have := hinv.deepen_le ((hmem_vis u).mp hu)
    omega
  · intro u hu hnot hexpu t ht
    rw [hmem_vis]
    -- A fresh state is queued.
    rcases (hmem_vis u).mp hu with hunew | huvis
    · exact absurd (mem_queue_append_iff.mpr (Or.inr ⟨hunew, deepen_of_mem hunew⟩)) hnot
    rw [deepen_of_notMem (hold u huvis)] at hnot hexpu ⊢
    refine hinv.closed_scan hold (fun t ht => ?_) huvis (fun hmem => hnot ?_) hexpu ht
    · exact ⟨(hall t ht).1, fun hkeep => (hmem_vis t).mp ((hall t ht).2 hkeep)⟩
    · exact mem_queue_append_iff.mpr (Or.inl hmem)

end Scan

omit [DecidableEq σ] in
/-- A state that is reached by fewer steps than the queued ones has no goal among its successors,
if it is within the cap. -/
theorem LoopInv.no_goal_below (hinv : P.LoopInv start q vis D) {n : ℕ} {t : σ}
    (hq : ∀ p ∈ q, n < p.2) (hsteps : Steps P.Entered start n s) (hexp : P.expands n = true)
    (ht : t ∈ P.next s) : P.goal t = false := by
  -- A state within `n` steps is visited with a depth that no queued state has.
  have hnot : ∀ {m u}, m ≤ n → D u ≤ m → (u, D u) ∉ q := by
    intro m u hm hdepth hmem
    exact absurd (hq _ hmem) (by simp only; omega)
  have hvisited : ∀ {m u}, Steps P.Entered start m u → m ≤ n → u ∈ vis ∧ D u ≤ m := by
    intro m u hu
    induction hu with
    | refl => exact fun _ => ⟨hinv.start_visited, hinv.start_depth.le⟩
    | @tail m b c hb hstep ih =>
        intro hm
        obtain ⟨hbvis, hbdepth⟩ := ih (by omega)
        have hexpb : P.expands (D b) = true := P.expands_of_le (by omega) hexp
        obtain ⟨-, hc⟩ := hinv.closed b hbvis (hnot (by omega) hbdepth) hexpb c hstep.1
        obtain ⟨hcvis, hcdepth⟩ := hc hstep.2
        exact ⟨hcvis, by omega⟩
  obtain ⟨hsvis, hsdepth⟩ := hvisited hsteps le_rfl
  exact (hinv.closed s hsvis (hnot le_rfl hsdepth) (P.expands_of_le hsdepth hexp) t ht).1

omit [DecidableEq σ] in
/-- When the queue is empty, no state within the cap has a goal among its successors. -/
theorem LoopInv.no_goal (hinv : P.LoopInv start [] vis D) {n : ℕ} {t : σ}
    (hsteps : Steps P.Entered start n s) (hexp : P.expands n = true) (ht : t ∈ P.next s) :
    P.goal t = false :=
  hinv.no_goal_below (by simp) hsteps hexp ht

/-- With fuel for every state that can still be entered, a search that answers `false` has seen
that no goal is in reach. -/
theorem search_complete (U : Finset σ) (hU : ∀ s, ∀ t ∈ P.next s, P.keep t = true → t ∈ U)
    (fuel : ℕ) (hinv : P.LoopInv start q vis D)
    (hfuel : (U.filter (· ∉ vis)).card + q.length < fuel) (h : P.search fuel q vis = false)
    {n : ℕ} {t : σ} (hsteps : Steps P.Entered start n s) (hexp : P.expands n = true)
    (ht : t ∈ P.next s) : P.goal t = false := by
  induction fuel generalizing q vis D with
  | zero => omega
  | succ fuel ih =>
      match q with
      | [] => exact hinv.no_goal hsteps hexp ht
      | (u, d) :: q =>
          unfold search at h
          simp only [List.length_cons] at hfuel
          split_ifs at h with hexpu
          · cases hscan : P.scan d (P.next u) q vis with
            | none => simp [hscan] at h
            | some r =>
                obtain ⟨q', vis'⟩ := r
                rw [hscan] at h
                obtain ⟨D', hinv'⟩ := hinv.scan hscan
                -- Every state that is queued is marked, and so taken out of what is left.
                refine ih hinv' ?_ h
                obtain ⟨new, rfl, rfl, hnodup, hnew, -⟩ := P.scan_eq_some hscan
                have hnew' : ∀ t ∈ new.reverse, t ∈ P.next u ∧ P.keep t = true ∧ t ∉ vis :=
                  fun t ht => hnew t (List.mem_reverse.mp ht)
                have hcard := card_unvisited_append_le U (List.nodup_reverse.mpr hnodup)
                  (fun t ht => hU u t (hnew' t ht).1 (hnew' t ht).2.1)
                  fun t ht => (hnew' t ht).2.2
                simp only [List.length_append, List.length_map, List.length_reverse] at hcard ⊢
                omega
          · exact ih (hinv.pop (by simpa using hexpu)) (by omega) h

/-- The search from a start state finds a goal exactly when some state reached within the cap
has one among its successors. -/
theorem search_eq_true_iff (U : Finset σ)
    (hU : ∀ s, ∀ t ∈ P.next s, P.keep t = true → t ∈ U) {fuel : ℕ} (hfuel : U.card + 1 < fuel) :
    P.searchFrom fuel start = true ↔
      ∃ n s t, Steps P.Entered start n s ∧ P.expands n = true ∧ t ∈ P.next s ∧
        P.goal t = true := by
  constructor
  · intro h
    refine P.search_sound start fuel _ _ (fun p hp => ?_) h
    rw [List.mem_singleton.mp hp]
    exact .refl
  · rintro ⟨n, s, t, hsteps, hexp, ht, hgoal⟩
    by_contra hfalse
    have hinv : P.LoopInv start [(start, 0)] [start] fun _ => 0 := by
      constructor <;> simp
    have hcard : (U.filter (· ∉ [start])).card ≤ U.card := Finset.card_filter_le _ _
    have hnone := search_complete U hU fuel hinv (by simp only [List.length_singleton]; omega)
      (by simpa [searchFrom] using hfalse) hsteps hexp ht
    rw [hgoal] at hnone
    cases hnone

/-- Without a cap the depth plays no role. -/
theorem search_uncapped_iff (hcap : P.cap = none) (U : Finset σ)
    (hU : ∀ s, ∀ t ∈ P.next s, P.keep t = true → t ∈ U) {fuel : ℕ} (hfuel : U.card + 1 < fuel) :
    P.searchFrom fuel start = true ↔
      ∃ s t, Relation.ReflTransGen P.Entered start s ∧ t ∈ P.next s ∧ P.goal t = true := by
  rw [search_eq_true_iff U hU hfuel]
  constructor
  · rintro ⟨n, s, t, hsteps, -, ht, hgoal⟩
    exact ⟨s, t, exists_steps_iff.mp ⟨n, hsteps⟩, ht, hgoal⟩
  · rintro ⟨s, t, hsteps, ht, hgoal⟩
    obtain ⟨n, hn⟩ := exists_steps_iff.mpr hsteps
    exact ⟨n, s, t, hn, by simp [expands, hcap], ht, hgoal⟩

/-- The search for one state that enters all others, by fewer steps than the cap. -/
theorem search_target_iff {next : σ → List σ} {target : σ} {k : ℕ} (U : Finset σ)
    (hU : ∀ s, ∀ t ∈ next s, t ∈ U) {fuel : ℕ} (hfuel : U.card + 1 < fuel) :
    searchFrom ⟨next, fun t => t = target, fun _ => true, some k⟩ fuel start = true ↔
      ∃ n < k, ∃ s, Steps (fun a b => b ∈ next a) start n s ∧ target ∈ next s := by
  have hentered : Entered ⟨next, fun t => t = target, fun _ => true, some k⟩ =
      fun a b => b ∈ next a := by
    ext a b
    exact and_iff_left rfl
  rw [search_eq_true_iff U (fun s t ht _ => hU s t ht) hfuel, hentered]
  simp only [expands, Option.all_some, decide_eq_true_eq]
  constructor
  · rintro ⟨n, s, t, hsteps, hn, ht, rfl⟩
    exact ⟨n, hn, s, hsteps, ht⟩
  · rintro ⟨n, hn, s, hsteps, ht⟩
    exact ⟨n, s, target, hsteps, hn, ht, rfl⟩

end SearchProblem

end Lace.Library
