import Lace.Library.Ranking
import Lace.Library.Selection
import Lace.Report.CanonicalKey

/-!
# Merging hypotheses

`dedupHypotheses` groups hypotheses by their canonical key and reports one of each group: the most
severe one, and among those the one with the most nodes. A note about the others is added to its
description, so that its key stays the same.

The members of a group are positions of the input in the source; here they are the hypotheses with
their positions.

## Main definitions

* `Group`: the hypotheses with one key, of which there is one at least;
* `Group.best`, `Group.representative`: the one that is reported;
* `dedupHypotheses`: the function of the source;
* `IsDedup`: what it has to return.

## Main results

* `dedupHypotheses_isDedup`: it does so at every level, and leaves its own output as it is.
-/

namespace Lace.Report

open Library LLM PhaseB

/-- `severityRank`: severities as numbers, the worst the greatest. -/
def severityRank (severity : String) : ℕ :=
  if severity = "high" || severity = "critical" then 2 else if severity = "medium" then 1 else 0

/-- `nodeToLoc`: the function and the place of the first access at a node. -/
def nodeToLoc (objects : List SurfaceObject) (n : NodeId) : Option String :=
  (siteOf objects n).map fun s =>
    (if s.2.containingFunction.isEmpty then s.2.functionName else s.2.containingFunction) ++
      " @ " ++ s.2.location

/-- A hypothesis with its position. -/
abbrev Member := RaceHypothesis × ℕ

/-- The hypotheses with one key. -/
structure Group where
  /-- The key. -/
  key : String
  /-- The first member. -/
  front : Member
  /-- The other members, in the order of the input. -/
  rest : List Member
  deriving DecidableEq

namespace Group

/-- All members. -/
def members (g : Group) : List Member := g.front :: g.rest

/-- `push_back` of the members of another group. -/
def append (g g' : Group) : Group := { g with rest := g.rest ++ g'.members }

/-- The member that is kept, of the best one so far and another one. -/
def better (best m : Member) : Member :=
  let ra := severityRank m.1.severity
  let rb := severityRank best.1.severity
  if ra ≠ rb then if rb < ra then m else best
  else if best.1.nodes.length < m.1.nodes.length then m else best

/-- `best`: the loop over the members starts with the first of them. -/
def best (g : Group) : Member := g.members.foldl better g.front

variable (objects : List SurfaceObject) (g : Group)

/-- `sites`: where the other members were observed. -/
def sites : List String :=
  ((g.members.filter fun m => m.2 ≠ g.best.2).flatMap fun m =>
    (inRoleOrder m.1.nodes).filterMap fun s => nodeToLoc objects s.2).dedup.insertionSort (· ≤ ·)

/-- `note`; it names the first six sites. -/
def note : String :=
  " [dedup: merged " ++ toString (g.members.length - 1) ++
    " near-duplicate finding(s) of the same root cause" ++
    (if (g.sites objects).isEmpty then ""
      else "; also observed at: " ++ "; ".intercalate ((g.sites objects).take 6) ++
        if 6 ≤ (g.sites objects).length then "; ..." else "") ++ "]"

/-- `rep`: the best member, with a note if there are others. -/
def representative : RaceHypothesis :=
  if 1 < g.members.length then
    { g.best.1 with description := g.best.1.description ++ g.note objects }
  else g.best.1

end Group

variable (objects : List SurfaceObject) (level : DedupLevel) (hs : List RaceHypothesis)

/-- The group of one hypothesis. -/
def single (m : Member) : Group := ⟨canonicalKey objects level m.1, m, []⟩

/-- `groups`, in the order of the keys. -/
def groups : List Group :=
  mergeByKey Group.key Group.append (hs.zipIdx.map (single objects level))

/-- `dedupHypotheses`: one hypothesis for each key, with a note on the others. -/
def dedupHypotheses : List RaceHypothesis :=
  if hs.length < 2 then hs
  else if (groups objects level hs).length = hs.length then hs
  else (groups objects level hs).map (Group.representative objects)

/-- What the deduplication has to return: one hypothesis for each key. -/
structure IsDedup (out : List RaceHypothesis) : Prop where
  /-- No key occurs twice. -/
  nodup_keys : (out.map (canonicalKey objects level)).Nodup
  /-- The keys are those of the input. -/
  keys : ∀ k, k ∈ out.map (canonicalKey objects level) ↔ k ∈ hs.map (canonicalKey objects level)
  /-- Each hypothesis is one of the input, up to a note; none with its key is more severe, and none
  of the same severity has more nodes. -/
  best : ∀ r ∈ out, ∃ h ∈ hs, (∃ note, r = { h with description := h.description ++ note }) ∧
    canonicalKey objects level r = canonicalKey objects level h ∧
    ∀ h' ∈ hs, canonicalKey objects level h' = canonicalKey objects level h →
      severityRank h'.severity ≤ severityRank h.severity ∧
        (severityRank h'.severity = severityRank h.severity → h'.nodes.length ≤ h.nodes.length)

variable {objects level hs} {g g' : Group} {m : Member}

/-! ### The best member -/

/-- A member is at least as good as another one: more severe, or as severe and with as many
nodes. -/
def AtLeast (m best : Member) : Prop :=
  severityRank m.1.severity ≤ severityRank best.1.severity ∧
    (severityRank m.1.severity = severityRank best.1.severity →
      m.1.nodes.length ≤ best.1.nodes.length)

theorem AtLeast.refl (m : Member) : AtLeast m m := ⟨le_rfl, fun _ => le_rfl⟩

theorem AtLeast.trans {a b c : Member} (hab : AtLeast a b) (hbc : AtLeast b c) : AtLeast a c := by
  refine ⟨hab.1.trans hbc.1, fun heq => ?_⟩
  have hrank : severityRank a.1.severity = severityRank b.1.severity :=
    le_antisymm hab.1 (heq ▸ hbc.1)
  exact (hab.2 hrank).trans (hbc.2 (hrank ▸ heq))

/-- The member that is kept is one of the two, and at least as good as both. -/
theorem better_spec (best m : Member) : (Group.better best m = best ∨ Group.better best m = m) ∧
    AtLeast best (Group.better best m) ∧ AtLeast m (Group.better best m) := by
  unfold Group.better AtLeast
  dsimp only
  split_ifs with hne hlt hlen
  · exact ⟨Or.inr rfl, ⟨hlt.le, fun h => absurd h hlt.ne⟩, le_rfl, fun _ => le_rfl⟩
  · refine ⟨Or.inl rfl, ⟨le_rfl, fun _ => le_rfl⟩, not_lt.mp hlt, fun h => absurd h hne⟩
  · exact ⟨Or.inr rfl, ⟨(not_not.mp hne).ge, fun _ => hlen.le⟩, le_rfl, fun _ => le_rfl⟩
  · exact ⟨Or.inl rfl, ⟨le_rfl, fun _ => le_rfl⟩, (not_not.mp hne).le, fun _ => not_lt.mp hlen⟩

/-- The best member is one of the group, and at least as good as the others. -/
theorem Group.best_spec (g : Group) : g.best ∈ g.members ∧ ∀ m ∈ g.members, AtLeast m g.best := by
  obtain ⟨hmem, hall⟩ := foldl_better_spec AtLeast.refl (fun _ _ _ => AtLeast.trans) better_spec
    g.front g.members
  refine ⟨?_, fun m hm => hall m (List.mem_cons_of_mem _ hm)⟩
  obtain heq | hmem := List.mem_cons.mp hmem
  · rw [Group.best, heq]
    exact List.mem_cons_self
  · exact hmem

variable (objects) in
theorem Group.representative_eq (g : Group) : ∃ note,
    g.representative objects = { g.best.1 with description := g.best.1.description ++ note } := by
  unfold Group.representative
  split_ifs
  · exact ⟨g.note objects, rfl⟩
  · exact ⟨"", by rw [String.append_empty]⟩

/-! ### The groups -/

theorem key_append (g g' : Group) (_ : g'.key = g.key) : (g.append g').key = g.key := rfl

/-- The members of a group are the hypotheses with its key, in their order. -/
theorem members_of_mem_groups (hg : g ∈ groups objects level hs) :
    g.members = hs.zipIdx.filter fun m => canonicalKey objects level m.1 = g.key := by
  have hmembers := eq_flatMap_group_of_mem_mergeByKey (f := Group.members) key_append
    (fun _ _ => rfl) hg
  -- Each group that is merged has one member.
  rw [hmembers, List.filter_map, List.flatMap_map]
  exact List.flatMap_singleton' _

theorem mem_members_iff (hg : g ∈ groups objects level hs) :
    m ∈ g.members ↔ m ∈ hs.zipIdx ∧ canonicalKey objects level m.1 = g.key := by
  rw [members_of_mem_groups hg, List.mem_filter, decide_eq_true_eq]

theorem exists_member_of_mem {h : RaceHypothesis} (hh : h ∈ hs) : ∃ m ∈ hs.zipIdx, m.1 = h := by
  rw [← List.zipIdx_map_fst 0 hs] at hh
  exact List.mem_map.mp hh

theorem keys_single : (hs.zipIdx.map (single objects level)).map Group.key =
    hs.map (canonicalKey objects level) := by
  calc (hs.zipIdx.map (single objects level)).map Group.key
      = (hs.zipIdx.map Prod.fst).map (canonicalKey objects level) := by
        rw [List.map_map, List.map_map]
        rfl
    _ = hs.map (canonicalKey objects level) := by rw [List.zipIdx_map_fst]

/-- The keys of the groups are those of the hypotheses, each once. -/
theorem keys_groups : ((groups objects level hs).map Group.key).Nodup ∧
    ∀ k, k ∈ (groups objects level hs).map Group.key ↔
      k ∈ hs.map (canonicalKey objects level) := by
  have hkeys := keys_mergeByKey key_append (hs.zipIdx.map (single objects level))
  rwa [keys_single] at hkeys

theorem length_groups : (groups objects level hs).length =
    (hs.map (canonicalKey objects level)).dedup.length := by
  have hperm := perm_keys_mergeByKey key_append (hs.zipIdx.map (single objects level))
  rw [keys_single] at hperm
  rw [← hperm.length_eq, List.length_map]
  rfl

/-- There are as many groups as hypotheses exactly if no key occurs twice. -/
theorem length_groups_eq_iff : (groups objects level hs).length = hs.length ↔
    (hs.map (canonicalKey objects level)).Nodup := by
  rw [length_groups, ← List.length_map (canonicalKey objects level)]
  constructor
  · intro hlen
    rw [← List.dedup_eq_self]
    exact (List.dedup_sublist _).eq_of_length hlen
  · intro hnodup
    rw [List.dedup_eq_self.mpr hnodup]

/-- The representative of a group has its key. -/
theorem key_representative (hg : g ∈ groups objects level hs) :
    canonicalKey objects level (g.representative objects) = g.key := by
  obtain ⟨note, heq⟩ := g.representative_eq objects
  rw [heq]
  -- The key does not read the description.
  exact ((mem_members_iff hg).mp g.best_spec.1).2

/-! ### The deduplication -/

/-- A list in which no key occurs twice is left as it is. -/
theorem dedupHypotheses_of_nodup (hnodup : (hs.map (canonicalKey objects level)).Nodup) :
    dedupHypotheses objects level hs = hs := by
  unfold dedupHypotheses
  rw [if_pos (length_groups_eq_iff.mpr hnodup), ite_self]

/-- It is its own deduplication. -/
theorem isDedup_of_nodup (hnodup : (hs.map (canonicalKey objects level)).Nodup) :
    IsDedup objects level hs hs where
  nodup_keys := hnodup
  keys _ := Iff.rfl
  best h hh := by
    refine ⟨h, hh, ⟨"", by rw [String.append_empty]⟩, rfl, fun h' hh' hkey => ?_⟩
    rw [List.inj_on_of_nodup_map hnodup hh' hh hkey]
    exact ⟨le_rfl, fun _ => le_rfl⟩

/-- The representatives are a deduplication. -/
theorem isDedup_representatives :
    IsDedup objects level hs ((groups objects level hs).map (Group.representative objects)) := by
  -- The keys of the representatives are those of their groups.
  have hkeys : ((groups objects level hs).map (Group.representative objects)).map
      (canonicalKey objects level) = (groups objects level hs).map Group.key := by
    rw [List.map_map]
    exact List.map_congr_left fun g hg => key_representative hg
  refine ⟨hkeys ▸ keys_groups.1, fun k => by rw [hkeys]; exact keys_groups.2 k, fun r hr => ?_⟩
  obtain ⟨g, hg, rfl⟩ := List.mem_map.mp hr
  obtain ⟨hmem, hall⟩ := g.best_spec
  obtain ⟨hin, hkey⟩ := (mem_members_iff hg).mp hmem
  refine ⟨g.best.1, List.fst_mem_of_mem_zipIdx hin, g.representative_eq objects, ?_,
    fun h' hh' hkey' => ?_⟩
  · rw [key_representative hg, hkey]
  · obtain ⟨m, hm, rfl⟩ := exists_member_of_mem hh'
    exact hall m ((mem_members_iff hg).mpr ⟨hm, hkey'.trans hkey⟩)

/-- The output of the deduplication, in its three cases. -/
theorem isDedup_dedupHypotheses : IsDedup objects level hs (dedupHypotheses objects level hs) := by
  unfold dedupHypotheses
  split_ifs with hlen hgroups
  · -- Less than two hypotheses are returned as they are.
    refine isDedup_of_nodup (List.nodup_iff_pairwise_ne.mpr ?_)
    match hs, hlen with
    | [], _ => exact List.Pairwise.nil
    | [h], _ => exact List.pairwise_singleton _ _
  · exact isDedup_of_nodup (length_groups_eq_iff.mp hgroups)
  · exact isDedup_representatives

/-- The deduplication returns the best hypothesis for each key, and returns its own output
unchanged. -/
theorem dedupHypotheses_isDedup (objects : List SurfaceObject) (level : DedupLevel)
    (hs : List RaceHypothesis) :
    IsDedup objects level hs (dedupHypotheses objects level hs) ∧
      dedupHypotheses objects level (dedupHypotheses objects level hs) =
        dedupHypotheses objects level hs :=
  ⟨isDedup_dedupHypotheses, dedupHypotheses_of_nodup isDedup_dedupHypotheses.nodup_keys⟩

end Lace.Report
