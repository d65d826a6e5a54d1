import Mathlib.Data.List.Sort
import Mathlib.Data.Set.Card
import Lace.Library.Selection
import Lace.PhaseB.Compose

/-!
# The selection of phase B

The raw candidates are merged by their key, sorted, and selected up to a cap for each tier and a
cap for all. Phase C reviews what is selected. Without `keepLow` the cap of the lowest tier is
zero, also in manual entry mode, where torn scalars are demoted to that tier in order to be
reviewed.

## Main definitions

* `candidates`, `selected`, `composeVerdict`: the merged, the selected candidates and the verdict;
* `StrongestTier`: the tier of the representative of a key;
* `Recall`: nothing is lost but to a cap that is not zero.

## Main results

* `kept_composeVerdict`: the tallies of the verdict;
* `selected_sound`: what is selected stems from a reviewed pair;
* `tier_ne_low_of_mem_selected`: without `keepLow` nothing of the lowest tier is selected;
* `recall_iff`: when nothing is lost.
-/

namespace Lace.PhaseB

open Library

/-- `envInt`: the variable if it is a number up to 1000, or a default. -/
def envInt (var : Option ℤ) (fallback : ℕ) : ℕ :=
  match var with
  | none => fallback
  | some v => if 0 ≤ v && v ≤ 1000 then v.toNat else fallback

/-- Another candidate with the key of a representative: the stronger one stays. -/
def PhaseBCandidate.merge (rep c : PhaseBCandidate) : PhaseBCandidate :=
  if tierRank rep.tier < tierRank c.tier then { c with merged := rep.merged + 1 }
  else { rep with merged := rep.merged + 1 }

/-- What `composeVerdict` returns, besides the text of the verdict. -/
structure Verdict where
  /-- `outSelected`. -/
  selected : List PhaseBCandidate
  /-- `hi`. -/
  hi : ℕ
  /-- `med`. -/
  med : ℕ
  /-- `low`. -/
  low : ℕ
  /-- `dis`. -/
  dis : ℕ
  /-- `kept`. -/
  kept : ℕ

theorem PhaseBCandidate.key_merge (rep c : PhaseBCandidate) (h : c.key = rep.key) :
    (rep.merge c).key = rep.key := by
  unfold PhaseBCandidate.merge
  split
  · exact h
  · rfl

theorem PhaseBCandidate.tier_merge (rep c : PhaseBCandidate) :
    (rep.merge c).tier = if tierRank rep.tier < tierRank c.tier then c.tier else rep.tier := by
  unfold PhaseBCandidate.merge
  split <;> rfl

namespace ComposeInput

variable (X : ComposeInput)

/-- `byAnchor`: the representatives, in the order of their keys. -/
def byAnchor : List PhaseBCandidate :=
  mergeByKey PhaseBCandidate.key PhaseBCandidate.merge X.raw

/-- The order of the review: by tier, risk score, and number of merged candidates. -/
def before (a b : PhaseBCandidate) : Bool :=
  if tierRank a.tier ≠ tierRank b.tier then tierRank b.tier < tierRank a.tier
  else
    let ar := (X.object a.object).riskScore
    let br := (X.object b.object).riskScore
    if ar ≠ br then br < ar else b.merged < a.merged

/-- `candidates`, sorted stably. -/
def candidates : List PhaseBCandidate :=
  X.byAnchor.insertionSort fun a b => X.before b a = false

/-- `maxHigh`, `maxMed` and `maxLow`. -/
def cap : Tier → ℕ
  | .high => envInt X.env.maxHigh 10000
  | .medium => envInt X.env.maxMed 10000
  | .low => if X.keepLow then envInt X.env.maxLow 10000 else 0

/-- `maxTotal`: how many candidates are selected at most. -/
def maxTotal : ℕ := envInt X.env.maxTotal 60

/-- `selected`: the candidates that are reported, within the cap of their tier and the total. -/
def selected : List PhaseBCandidate :=
  selectCapped PhaseBCandidate.tier X.cap X.maxTotal X.candidates

/-- How many candidates of a tier are selected. -/
def selectedOf (t : Tier) : ℕ := X.selected.countP fun s => s.tier = t

/-- `composeVerdict`: the candidates of a session that are reported, with the counts. -/
def composeVerdict : Verdict where
  selected := X.selected
  hi := X.selectedOf .high
  med := X.selectedOf .medium
  low := X.selectedOf .low
  dis := X.dis
  kept := X.selected.length

/-- The strongest tier among the reviewed pairs with a key: the tier of its representative. -/
def StrongestTier (k : String) (t : Tier) : Prop :=
  (∃ p, X.Reviewed p ∧ (X.candidate p).key = k ∧ (X.candidate p).tier = t) ∧
    ∀ p, X.Reviewed p → (X.candidate p).key = k → tierRank (X.candidate p).tier ≤ tierRank t

/-- How many keys have a tier as their strongest one. -/
noncomputable def keysOfTier (t : Tier) : ℕ := {k | X.StrongestTier k t}.ncard

/-- Each reviewed pair is represented in the selection by the representative of its key, unless a
cap that is not zero is reached, that of the representative's tier or the one for all. -/
def Recall : Prop :=
  ∀ p, X.Reviewed p →
    (∃ s ∈ X.selected, s.key = (X.candidate p).key ∧ X.StrongestTier s.key s.tier) ∨
    (∃ t, X.StrongestTier (X.candidate p).key t ∧ X.cap t ≠ 0 ∧ X.cap t ≤ X.selectedOf t) ∨
    X.maxTotal ≤ X.selected.length

variable {X}

theorem represents_byAnchor :
    Represents PhaseBCandidate.key PhaseBCandidate.tier tierRank X.raw X.byAnchor :=
  represents_mergeByKey PhaseBCandidate.key_merge PhaseBCandidate.tier_merge X.raw

theorem candidates_perm : X.candidates.Perm X.byAnchor := List.perm_insertionSort _ _

/-- Every candidate that is kept counts for its tier. -/
theorem kept_composeVerdict : X.composeVerdict.kept =
    X.composeVerdict.low + X.composeVerdict.med + X.composeVerdict.hi := by
  have huniv : (Finset.univ : Finset Tier) = {.low, .medium, .high} := rfl
  have hsum := sum_countP PhaseBCandidate.tier X.selected
  rw [huniv, Finset.sum_insert (by decide), Finset.sum_insert (by decide),
    Finset.sum_singleton] at hsum
  rw [composeVerdict, ← hsum, ← Nat.add_assoc]
  rfl

theorem strongestTier_iff {k : String} {t : Tier} : X.StrongestTier k t ↔
    Strongest PhaseBCandidate.key PhaseBCandidate.tier tierRank X.raw k t := by
  constructor
  · rintro ⟨⟨p, hp, hk, ht⟩, hle⟩
    refine ⟨⟨_, mem_raw_iff.mpr ⟨p, hp, rfl⟩, hk, ht⟩, fun c hc hck => ?_⟩
    obtain ⟨q, hq, rfl⟩ := mem_raw_iff.mp hc
    exact hle q hq hck
  · rintro ⟨⟨c, hc, hk, ht⟩, hle⟩
    obtain ⟨p, hp, rfl⟩ := mem_raw_iff.mp hc
    exact ⟨⟨p, hp, hk, ht⟩, fun q hq hqk => hle _ (mem_raw_iff.mpr ⟨q, hq, rfl⟩) hqk⟩

/-- The candidates that are sorted are one for each key of a reviewed pair. -/
theorem mem_key_candidates_iff {k : String} :
    (∃ c ∈ X.candidates, c.key = k) ↔ ∃ p, X.Reviewed p ∧ (X.candidate p).key = k := by
  have hkeys := represents_byAnchor (X := X).keys k
  simp only [List.mem_map] at hkeys
  simp only [candidates_perm.mem_iff]
  rw [hkeys]
  constructor
  · rintro ⟨c, hc, hk⟩
    obtain ⟨p, hp, rfl⟩ := mem_raw_iff.mp hc
    exact ⟨p, hp, hk⟩
  · rintro ⟨p, hp, hk⟩
    exact ⟨_, mem_raw_iff.mpr ⟨p, hp, rfl⟩, hk⟩

theorem strongestTier_of_mem_candidates {c : PhaseBCandidate} (hc : c ∈ X.candidates) :
    X.StrongestTier c.key c.tier :=
  strongestTier_iff.mpr (represents_byAnchor.strongest c (candidates_perm.mem_iff.mp hc))

theorem StrongestTier.unique {k : String} {t t' : Tier} (h : X.StrongestTier k t)
    (h' : X.StrongestTier k t') : t = t' :=
  (strongestTier_iff.mp h).unique tierRank_injective (strongestTier_iff.mp h')

/-- Two candidates of the sorted list with one key are the same. -/
theorem eq_of_key_eq {c c' : PhaseBCandidate} (hc : c ∈ X.candidates) (hc' : c' ∈ X.candidates)
    (h : c.key = c'.key) : c = c' :=
  List.inj_on_of_nodup_map represents_byAnchor.nodup_keys (candidates_perm.mem_iff.mp hc)
    (candidates_perm.mem_iff.mp hc') h

/-- The sorted list has one candidate of a tier for each key whose strongest tier it is. -/
theorem countP_candidates (t : Tier) :
    (X.candidates.countP fun c => c.tier = t) = X.keysOfTier t := by
  have hset : {k | X.StrongestTier k t} = (((X.raw.map PhaseBCandidate.key).dedup.filter fun k =>
      Strongest PhaseBCandidate.key PhaseBCandidate.tier tierRank X.raw k t).toFinset : Set _) := by
    ext k
    simp only [Set.mem_ofPred_eq, strongestTier_iff, List.coe_toFinset, List.mem_filter,
      List.mem_dedup, decide_eq_true_eq, iff_and_self]
    rintro ⟨⟨c, hc, rfl, -⟩, -⟩
    exact List.mem_map_of_mem hc
  rw [keysOfTier, hset, Set.ncard_coe_finset,
    List.toFinset_card_of_nodup ((List.nodup_dedup _).filter _), candidates_perm.countP_eq,
    countP_tier_of_represents tierRank_injective represents_byAnchor]

/-- What is selected is a candidate of a reviewed pair, up to the number it stands for. -/
theorem selected_sound {s : PhaseBCandidate} (hs : s ∈ X.selected) :
    ∃ p, X.Reviewed p ∧ s = { X.candidate p with merged := s.merged } := by
  have hrep : s ∈ X.byAnchor := candidates_perm.mem_iff.mp (mem_of_mem_selectCapped hs)
  refine forall_mem_mergeByKey
    (P := fun s => ∃ p, X.Reviewed p ∧ s = { X.candidate p with merged := s.merged }) ?_ ?_ s hrep
  · rintro rep c ⟨p, hp, hrep⟩ ⟨q, hq, hc⟩
    unfold PhaseBCandidate.merge
    split
    · exact ⟨q, hq, by rw [hc]⟩
    · exact ⟨p, hp, by rw [hrep]⟩
  · intro c hc
    obtain ⟨p, hp, rfl⟩ := mem_raw_iff.mp hc
    exact ⟨p, hp, rfl⟩

/-- Without `keepLow` nothing of the lowest tier is selected, in automatic and in manual mode. -/
theorem tier_ne_low_of_mem_selected (hkeep : X.keepLow = false) {s : PhaseBCandidate}
    (hs : s ∈ X.selected) : s.tier ≠ .low := by
  intro hlow
  apply cap_ne_zero_of_mem_selectCapped hs
  rw [hlow, cap, hkeep]
  rfl

/-- A reviewed pair is represented or not as its key is, which has one candidate. -/
theorem recall_iff_candidates : X.Recall ↔
    ∀ c ∈ X.candidates, c ∈ X.selected ∨
      (X.cap c.tier ≠ 0 ∧ X.cap c.tier ≤ X.selectedOf c.tier) ∨ X.maxTotal ≤ X.selected.length := by
  constructor
  · intro h c hc
    obtain ⟨p, hp, hk⟩ := mem_key_candidates_iff.mp ⟨c, hc, rfl⟩
    have htier := strongestTier_of_mem_candidates hc
    rcases h p hp with ⟨s, hs, hsk, -⟩ | ⟨t, ht, hcap⟩ | htotal
    · -- Only `c` itself has the key among the candidates.
      have hsc := eq_of_key_eq (mem_of_mem_selectCapped hs) hc (hsk.trans hk)
      exact Or.inl (hsc ▸ hs)
    · have htc : t = c.tier := StrongestTier.unique (hk ▸ ht) htier
      exact Or.inr (Or.inl (htc ▸ hcap))
    · exact Or.inr (Or.inr htotal)
  · intro h p hp
    obtain ⟨c, hc, hk⟩ := mem_key_candidates_iff.mpr ⟨p, hp, rfl⟩
    have htier := strongestTier_of_mem_candidates hc
    rcases h c hc with hsel | hcap | htotal
    · exact Or.inl ⟨c, hsel, hk, htier⟩
    · exact Or.inr (Or.inl ⟨c.tier, hk ▸ htier, hcap⟩)
    · exact Or.inr (Or.inr htotal)

/-- Nothing is lost, if and only if no reviewed pair belongs to a key whose strongest tier has the
cap zero, or there are enough keys of the other tiers to reach the total. -/
theorem recall_iff (X : ComposeInput) : X.Recall ↔
    (∀ p, X.Reviewed p → ∀ t, X.StrongestTier (X.candidate p).key t → X.cap t ≠ 0) ∨
      X.maxTotal ≤ ∑ t, min (X.cap t) (X.keysOfTier t) := by
  have hcaps : (∀ c ∈ X.candidates, X.cap c.tier ≠ 0) ↔
      ∀ p, X.Reviewed p → ∀ t, X.StrongestTier (X.candidate p).key t → X.cap t ≠ 0 := by
    constructor
    · intro h p hp t ht
      obtain ⟨c, hc, hk⟩ := mem_key_candidates_iff.mpr ⟨p, hp, rfl⟩
      have htc : t = c.tier := StrongestTier.unique (hk ▸ ht) (strongestTier_of_mem_candidates hc)
      exact htc ▸ h c hc
    · intro h c hc
      obtain ⟨p, hp, hk⟩ := mem_key_candidates_iff.mp ⟨c, hc, rfl⟩
      exact h p hp c.tier (hk ▸ strongestTier_of_mem_candidates hc)
  have hcapped := selectCapped_recall_iff PhaseBCandidate.tier X.cap X.maxTotal X.candidates
  simp only [countP_candidates] at hcapped
  rw [recall_iff_candidates, ← hcaps, ← hcapped]
  rfl

end ComposeInput

/-! ### A torn scalar in manual entry mode -/

/-- The two declared entries, with one node each. -/
def declaredEntries : ThreadCreationTree where
  ccpg := .ofNodes [10, 20] (fun _ => .assignment) fun _ => false
  threads := [0, 1]
  thread t :=
    { parent := none
      forkNode := if t = 0 then 10 else 20
      joinNode := none
      nodes := if t = 0 then [10] else [20]
      isKernelEntry := true
      isReentrant := false
      entryName := if t = 0 then "drv_ioctl" else "drv_irq" }
  parent_lt := nofun
  forkNode_inj _ _ h := absurd rfl h
  isKernelEntry_of_ne _ _ _ _ _ := rfl

/-- A counter that one entry writes plainly and the other reads with `READ_ONCE`. -/
def tornCounter : SurfaceObject where
  name := "dev->count"
  accesses :=
    [ ⟨⟨1, .write, 10, "dev->count = n", false, ""⟩, "drv_ioctl", "drv_ioctl", "drv.c:10"⟩,
      ⟨⟨2, .read, 20, "n = READ_ONCE(dev->count)", false, ""⟩, "drv_irq", "drv_irq", "drv.c:20"⟩ ]
  accessingThreadIds := ⟨[1, 2], TidSet.sorted_one_two⟩
  hasFreeOperation := false
  hasScalarTornAccess := true
  hasListMutation := false
  isSelfRace := false
  riskScore := 3

/-- The counter in manual entry mode, without contracts and with the default environment. -/
def manualTornScalar : ComposeInput where
  tct := declaredEntries
  filters := ⟨some fun name => name = "drv_ioctl" || name = "drv_irq", none⟩
  threadById t := if t = 1 then some 0 else if t = 2 then some 1 else none
  contractsByTid _ := none
  object _ := tornCounter
  objIndex O := if O = 0 then some 0 else none
  objs := [some 0]
  keepLow := false
  env := ⟨false, false, false, false, none, none, none, none⟩

/-- The demoted pair is not selected, although no cap but that of zero is reached. -/
theorem manualTornScalar_not_recall : ¬manualTornScalar.Recall := by
  have hrev : manualTornScalar.Reviewed ⟨0, 0, 1, 2⟩ :=
    { mem := by decide
      index := by decide
      mem1 := by decide
      mem2 := by decide
      lt := by decide
      gate := by decide +kernel
      conflicts := by decide +kernel
      not_discharged := by decide +kernel
      not_suppressed := by decide +kernel }
  have hnone : manualTornScalar.selected = [] := by decide +kernel
  intro h
  rcases h _ hrev with ⟨s, hs, -⟩ | ⟨t, ht, hcap, hreached⟩ | htotal
  · simp [hnone] at hs
  · -- A cap that is not zero is not reached, as nothing is selected.
    simp only [ComposeInput.selectedOf, hnone, List.countP_nil, nonpos_iff_eq_zero] at hreached
    exact hcap hreached
  · rw [hnone] at htotal
    exact absurd htotal (by decide)

end Lace.PhaseB
