import Mathlib.Data.List.DropRight
import Lace.PhaseB.Selection

/-!
# The alternates of merged candidates

When `composeVerdict` merges a candidate into the representative of its key, it leaves a line about
the one that is not kept. A stronger candidate takes over the count and the lines of the
representative, which becomes a line itself.

The lines are cut at a number of bytes, so texts are sequences of bytes here.

## Main definitions

* `oneLine`, `fmtAccess`, `PhaseBCandidate.line`: the line about a candidate;
* `MergedCandidate`: a candidate with its alternates;
* `dedup`: the deduplication;
* `ConservesEvidence`: nothing about a raw candidate is lost.

## Main results

* `map_dedup`: without the alternates these are the representatives of `byAnchor`;
* `conservesEvidence_dedup`: the deduplication conserves the evidence.
-/

namespace Lace.PhaseB

open Library

/-! ### The lines -/

/-- The bytes of a text. -/
def bytes (s : String) : List UInt8 := s.toUTF8.data.toList

/-- `oneLine`, the loop: a run of blanks, tabs and line ends becomes one blank. -/
def collapseSpace : Bool → List UInt8 → List UInt8
  | _, [] => []
  | prevSpace, c :: cs =>
    if c = 10 || c = 13 || c = 9 || c = 32 then
      if prevSpace then collapseSpace true cs else 32 :: collapseSpace true cs
    else c :: collapseSpace false cs

/-- `oneLine`: the text without blanks at its end, cut at `maxLen` bytes. -/
def oneLine (text : List UInt8) (maxLen : ℕ) : List UInt8 :=
  let s := (collapseSpace false text).rdropWhile fun c => c = 32
  if maxLen < s.length then s.take maxLen ++ bytes " ..." else s

/-- `fmtAccess`: an access in one line, for the list of alternates. -/
def fmtAccess : Option AccessSite → List UInt8
  | none => bytes "(site not located)"
  | some a =>
    let fn := if a.containingFunction.isEmpty then a.functionName else a.containingFunction
    bytes (accessTypeText a.accessType ++ " in " ++ (if fn.isEmpty then "?" else fn) ++ " @ " ++
        a.location) ++
      if a.codeSnippet.isEmpty then [] else bytes " | code: " ++ oneLine (bytes a.codeSnippet) 140

/-- The line about a candidate among the alternates of another one. -/
def PhaseBCandidate.line (c : PhaseBCandidate) : List UInt8 :=
  oneLine (bytes ("thread " ++ toString c.reqT ++ " vs thread " ++ toString c.violT ++ ": ") ++
    fmtAccess c.violAccess) 180

/-! ### The deduplication -/

/-- `PhaseBCandidate` with its alternates. -/
structure MergedCandidate extends PhaseBCandidate where
  /-- `alternates`. -/
  alternates : List (List UInt8)
  deriving DecidableEq

/-- A raw candidate stands for itself, without alternates. -/
def MergedCandidate.ofRaw (c : PhaseBCandidate) : MergedCandidate :=
  { c with merged := 1, alternates := [] }

/-- Another candidate with the key of a representative: the stronger one stays, and takes over what
was merged; the other one becomes a line. -/
def MergedCandidate.merge (rep c : MergedCandidate) : MergedCandidate :=
  if tierRank rep.tier < tierRank c.tier then
    { c with
      merged := rep.merged + 1
      alternates := rep.alternates ++ [rep.line] }
  else
    { rep with
      merged := rep.merged + 1
      alternates := rep.alternates ++ [c.line] }

/-- The key of a candidate, whatever its alternates. -/
def MergedCandidate.key (c : MergedCandidate) : String := c.toPhaseBCandidate.key

/-- The deduplication of `composeVerdict`: `byAnchor` with the alternates. -/
def dedup (raw : List PhaseBCandidate) : List MergedCandidate :=
  mergeByKey MergedCandidate.key MergedCandidate.merge (raw.map MergedCandidate.ofRaw)

/-- A representative stands for a group of raw candidates. -/
structure StandsFor (group : List PhaseBCandidate) (r : MergedCandidate) : Prop where
  /-- No candidate of the group is stronger. -/
  strongest : ∀ c ∈ group, tierRank c.tier ≤ tierRank r.tier
  /-- It counts the group. -/
  merged_eq : r.merged = group.length
  /-- It has an alternate for every candidate but one. -/
  length_alternates : r.alternates.length + 1 = r.merged
  /-- It is one of the group, and its alternates are the lines about the others. -/
  alternates : ∃ c others, (c :: others).Perm group ∧
    r.toPhaseBCandidate = { c with merged := r.merged } ∧
    r.alternates.Perm (others.map PhaseBCandidate.line)

/-- The representatives conserve the evidence of the raw candidates. -/
structure ConservesEvidence (raw : List PhaseBCandidate) (reps : List MergedCandidate) : Prop where
  /-- No key has two representatives. -/
  nodup_keys : (reps.map MergedCandidate.key).Nodup
  /-- Each object, hazard class and anchor of a raw candidate has one representative. -/
  one : ∀ c ∈ raw, ∃! r, r ∈ reps ∧ r.objectId = c.objectId ∧
    phaseBHazardClass r.label = phaseBHazardClass c.label ∧ anchorKey r.anchor = anchorKey c.anchor
  /-- A representative stands for the raw candidates with its key. -/
  standsFor : ∀ r ∈ reps, StandsFor (raw.filter fun c => c.key = r.key) r
  /-- The counts of all representatives add up to the number of raw candidates. -/
  sum_merged : (reps.map fun r => r.merged).sum = raw.length

variable {raw group : List PhaseBCandidate} {r : MergedCandidate} {c : PhaseBCandidate}

theorem MergedCandidate.key_merge (rep c : MergedCandidate) (h : c.key = rep.key) :
    (rep.merge c).key = rep.key := by
  unfold MergedCandidate.merge
  split
  · exact h
  · rfl

/-! ### One group -/

/-- A raw candidate stands for itself. -/
theorem standsFor_ofRaw : StandsFor [c] (.ofRaw c) where
  strongest _ hd := List.mem_singleton.mp hd ▸ le_rfl
  merged_eq := rfl
  length_alternates := rfl
  alternates := ⟨c, [], List.Perm.refl _, rfl, List.Perm.nil⟩

/-- One more candidate of the group is merged. -/
theorem StandsFor.merge (h : StandsFor group r) :
    StandsFor (group ++ [c]) (r.merge (.ofRaw c)) := by
  obtain ⟨d, others, hperm, hr, halt⟩ := h.alternates
  -- A line does not show how many candidates it stands for.
  have hline : r.line = d.line := by
    rw [hr, PhaseBCandidate.line, PhaseBCandidate.line]
  unfold MergedCandidate.merge
  split
  next hlt =>
    -- The new candidate takes over, and the old one becomes a line.
    refine ⟨fun e he => ?_, ?_, ?_, c, others ++ [d], ?_, rfl, ?_⟩
    · obtain he | he := List.mem_append.mp he
      · exact (h.strongest e he).trans hlt.le
      · exact List.mem_singleton.mp he ▸ le_rfl
    · simp [h.merged_eq]
    · simp [h.length_alternates]
    · -- The old candidate joins the others, and the new one leaves them.
      have hswap : (c :: (others ++ [d])).Perm (c :: d :: others) :=
        (List.perm_append_singleton d others).cons c
      exact hswap.trans ((hperm.cons c).trans (List.perm_append_singleton c group).symm)
    · rw [List.map_append, List.map_singleton, ← hline]
      exact halt.append_right _
  next hnlt =>
    refine ⟨fun e he => ?_, ?_, ?_, d, others ++ [c], ?_, ?_, ?_⟩
    · obtain he | he := List.mem_append.mp he
      · exact h.strongest e he
      · rw [List.mem_singleton.mp he]
        exact not_lt.mp hnlt
    · simp [h.merged_eq]
    · simp [h.length_alternates]
    · exact hperm.append_right [c]
    · show ({ r.toPhaseBCandidate with merged := r.merged + 1 } : PhaseBCandidate) = _
      rw [hr]
    · rw [List.map_append, List.map_singleton]
      exact halt.append_right _

/-- All candidates of a group are merged, one after the other. -/
theorem StandsFor.foldl (h : StandsFor group r) (rest : List PhaseBCandidate) :
    StandsFor (group ++ rest)
      ((rest.map MergedCandidate.ofRaw).foldl MergedCandidate.merge r) := by
  -- Induction on the candidates to come, for every group so far.
  induction rest generalizing group r with
  | nil => simpa using h
  | cons c rest ih =>
    have hrest := ih (h.merge (c := c))
    rwa [List.append_assoc] at hrest

/-! ### All groups -/

theorem key_ofRaw : (MergedCandidate.ofRaw c).key = c.key := rfl

/-- A raw candidate has its key with and without alternates. -/
theorem filter_map_ofRaw (k : String) :
    ((raw.map MergedCandidate.ofRaw).filter fun c => c.key = k) =
      (raw.filter fun c => c.key = k).map MergedCandidate.ofRaw := by
  rw [List.filter_map]
  apply congrArg (List.map _)
  apply List.filter_congr
  intro c _
  rw [Function.comp_apply, decide_eq_decide, key_ofRaw]

/-- A representative stands for the raw candidates with its key. -/
theorem standsFor_of_mem_dedup (hr : r ∈ dedup raw) :
    StandsFor (raw.filter fun c => c.key = r.key) r := by
  obtain ⟨x, xs, hgroup, hfold⟩ := exists_group_of_mem_mergeByKey MergedCandidate.key_merge hr
  rw [filter_map_ofRaw] at hgroup
  obtain ⟨c, rest, hraw, rfl, rfl⟩ := List.map_eq_cons_iff.mp hgroup
  rw [hraw, hfold]
  exact standsFor_ofRaw.foldl rest

theorem keys_dedup : ((dedup raw).map MergedCandidate.key).Nodup ∧
    ∀ k, k ∈ (dedup raw).map MergedCandidate.key ↔ k ∈ raw.map PhaseBCandidate.key := by
  have hkeys := keys_mergeByKey MergedCandidate.key_merge (raw.map MergedCandidate.ofRaw)
  rwa [List.map_map] at hkeys

/-- The deduplication conserves the evidence, whatever the raw candidates are. -/
theorem conservesEvidence_dedup (raw : List PhaseBCandidate) :
    ConservesEvidence raw (dedup raw) where
  nodup_keys := keys_dedup.1
  one c hc := by
    obtain ⟨r, hr, hkey⟩ := List.mem_map.mp ((keys_dedup.2 c.key).mpr (List.mem_map_of_mem hc))
    refine ⟨r, ⟨hr, key_inj.mp hkey⟩, ?_⟩
    rintro s ⟨hs, hparts⟩
    exact List.inj_on_of_nodup_map keys_dedup.1 hs hr ((key_inj.mpr hparts).trans hkey.symm)
  standsFor r hr := standsFor_of_mem_dedup hr
  sum_merged := by
    have hsum := sum_length_groups MergedCandidate.key_merge (raw.map MergedCandidate.ofRaw)
    rw [List.length_map] at hsum
    rw [← hsum]
    -- Each count is the size of a group.
    refine congrArg List.sum (List.map_congr_left fun r hr => ?_)
    rw [(standsFor_of_mem_dedup hr).merged_eq, filter_map_ofRaw, List.length_map]

/-- Without the alternates the representatives are those of `byAnchor`. -/
theorem map_dedup (X : ComposeInput) :
    (dedup X.raw).map MergedCandidate.toPhaseBCandidate = X.byAnchor := by
  have hmerge : ∀ rep c : MergedCandidate, (rep.merge c).toPhaseBCandidate =
      rep.toPhaseBCandidate.merge c.toPhaseBCandidate := by
    intro rep c
    unfold MergedCandidate.merge PhaseBCandidate.merge
    split <;> rfl
  -- A raw candidate counts one already.
  have hraw : (X.raw.map MergedCandidate.ofRaw).map MergedCandidate.toPhaseBCandidate = X.raw := by
    rw [List.map_map]
    refine (List.map_congr_left fun c hc => ?_).trans (List.map_id _)
    obtain ⟨p, -, rfl⟩ := ComposeInput.mem_raw_iff.mp hc
    rfl
  have hkey : ∀ c : MergedCandidate, c.toPhaseBCandidate.key = c.key := fun _ => rfl
  rw [dedup, map_mergeByKey _ hkey hmerge, hraw]
  rfl

end Lace.PhaseB
