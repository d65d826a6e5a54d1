import Lace.Report.Dedup
import Lace.Surface.FieldKeyText

/-!
# The groups of the report

`printResults` groups the confirmed hypotheses by a signature: the fields and the functions of
their nodes, or the nodes themselves if no field is known. Of each group it writes the hypothesis
with the longest description as the primary one, and the others as alternates. The groups are
written in the order in which they are first seen.

## Main definitions

* `extractFieldSignature`: the field that a piece of code accesses;
* `HypoSig`, `computeSignature`: the signature of a hypothesis, and the order of the signatures;
* `pickRepresentative`: the primary member of a group;
* `printResults`: what is written;
* `IsReport`: nothing is lost.

## Main results

* `less_iff`: the order of the signatures is the lexicographic one;
* `groups_table`, `groupOrder_perm`: the two containers of the loop agree;
* `printResults_isReport`: what is written, in every order of the hypotheses.
-/

namespace Lace.Report

open Library LLM

/-! ### Fields -/

/-- `[A-Za-z_]`: the characters that a name may start with. -/
def isIdentStart (c : Char) : Bool := c.isAlpha || c = '_'

/-- `[A-Za-z_0-9]`: the characters of a name. -/
def isIdentChar (c : Char) : Bool := isIdentStart c || c.isDigit

/-- `(?:->|\.)\s*`, and what is behind it. -/
def afterAccess : List Char → Option (List Char)
  | '-' :: '>' :: s => some (s.dropWhile isSpace)
  | '.' :: s => some (s.dropWhile isSpace)
  | _ => none

/-- `any_field_re` at the start of a text: the field, and what is behind it. No shorter field would
make the rest of a pattern match. -/
def matchField (s : List Char) : Option (List Char × List Char) :=
  (afterAccess s).bind fun s =>
    if s.head?.any isIdentStart then some (s.takeWhile isIdentChar, s.dropWhile isIdentChar)
    else none

/-- `(?:\[[^\]]*\])?`: what is behind it. -/
def skipIndex : List Char → List Char
  | '[' :: s =>
      match s.dropWhile (· ≠ ']') with
      | ']' :: rest => rest
      | _ => '[' :: s
  | s => s

/-- `\s*(?:\[[^\]]*\])?\s*[+\-*/&|^]?=` at the start of a text. -/
def isAssignment (s : List Char) : Bool :=
  match (skipIndex (s.dropWhile isSpace)).dropWhile isSpace with
  | [] => false
  -- A compound assignment, or a plain one; also the first half of a comparison.
  | c :: rest => if c ∈ "+-*/&|^".toList then rest.head? = some '=' else c = '='

/-- The first match of `lhs_assign_re`. -/
def assignedField (code : List Char) : Option (List Char) :=
  code.tails.findSome? fun s => (matchField s).bind fun m => if isAssignment m.2 then some m.1 else none

/-- The last match of `any_field_re`. No two matches overlap. -/
def lastField (code : List Char) : Option (List Char) :=
  (code.tails.filterMap fun s => (matchField s).map Prod.fst).getLast?

/-- `extractFieldSignature`: the field that a line of code assigns, or else the last one it
names. -/
def extractFieldSignature (code : String) : String :=
  match assignedField code.toList with
  | some field => String.ofList field
  | none => String.ofList ((lastField code.toList).getD [])

/-! ### Signatures -/

/-- `CCPGNode`: what the signatures read of a node. -/
structure ReportNode where
  /-- `getCode` of the node of the CPG, if there is one. -/
  code : Option String
  /-- `getName` of the function node of the node's function, if all of them are there. -/
  functionName : Option String

/-- `functionNameOf`. -/
def functionNameOf (n : ReportNode) : String := n.functionName.getD ""

/-- `std::set`: the elements in their order, each once. -/
def sortedSet {α : Type*} [LinearOrder α] (l : List α) : List α := mergeByKey id (fun x _ => x) l

/-- `HypoSig`: what two hypotheses share if they are reported as one. -/
structure HypoSig where
  /-- `fields`. -/
  fields : List String
  /-- `fns`. -/
  fns : List String
  /-- `node_ids_fallback`. -/
  nodeIdsFallback : List NodeId

namespace HypoSig

/-- `operator<`. -/
def less (a b : HypoSig) : Bool :=
  if a.fields ≠ b.fields then a.fields < b.fields
  else if a.fns ≠ b.fns then a.fns < b.fns
  else a.nodeIdsFallback < b.nodeIdsFallback

/-- The three parts, compared one after the other. -/
def key (s : HypoSig) : List String ×ₗ List String ×ₗ List NodeId :=
  toLex (s.fields, toLex (s.fns, s.nodeIdsFallback))

/-- Two signatures with the same key are equal. -/
theorem key_injective : Function.Injective key := by
  rintro ⟨fields, fns, ids⟩ ⟨fields', fns', ids'⟩ h
  obtain ⟨rfl, h⟩ := Prod.mk.inj (toLex_inj.mp h)
  obtain ⟨rfl, rfl⟩ := Prod.mk.inj (toLex_inj.mp h)
  rfl

/-- The order of the map: `less_iff` says that it is `operator<`. -/
instance : LinearOrder HypoSig := LinearOrder.lift' key key_injective

/-- `operator<` is the lexicographic order of the three parts, which is a strict weak order. -/
theorem less_iff {a b : HypoSig} : a.less b = true ↔ a < b := by
  have hlt : a < b ↔ a.key < b.key := Iff.rfl
  rw [hlt, key, key, Prod.Lex.toLex_lt_toLex, Prod.Lex.toLex_lt_toLex, less]
  split_ifs with hfields hfns
  · simp [hfields]
  · simp [not_not.mp hfields, hfns]
  · simp [not_not.mp hfields, not_not.mp hfns]

end HypoSig

section Report

-- `CCPG::getNodeByID`.
variable (getNodeByID : NodeId → Option ReportNode)

/-- The nodes of a hypothesis that the graph has. -/
def knownNodes (h : RaceHypothesis) : List ReportNode :=
  h.nodes.filterMap fun entry => getNodeByID entry.2

/-- `computeSignature`: the fields and functions of a hypothesis, or its nodes if it has none. -/
def computeSignature (h : RaceHypothesis) : HypoSig :=
  let fields := ((knownNodes getNodeByID h).map fun n =>
    extractFieldSignature (n.code.getD "")).filter (· ≠ "")
  { fields := sortedSet fields
    fns := sortedSet (((knownNodes getNodeByID h).map functionNameOf).filter (· ≠ ""))
    -- Without a known field, only findings on the same nodes are merged.
    nodeIdsFallback := if fields = [] then sortedSet (h.nodes.map Prod.snd) else [] }

/-! ### Groups -/

/-- The members under one signature. -/
structure SigGroup where
  /-- The signature. -/
  sig : HypoSig
  /-- The first member. -/
  front : Member
  /-- The other members, in the order of the input. -/
  rest : List Member

namespace SigGroup

/-- All members. -/
def members (g : SigGroup) : List Member := g.front :: g.rest

/-- `push_back` of the members of another group. -/
def append (g g' : SigGroup) : SigGroup := { g with rest := g.rest ++ g'.members }

/-- The member that is kept, of the best one so far and another one. -/
def longer (best m : Member) : Member :=
  if best.1.description.utf8ByteSize < m.1.description.utf8ByteSize ||
      (m.1.description.utf8ByteSize = best.1.description.utf8ByteSize && m.1.id < best.1.id) then m
  else best

/-- `pickRepresentative`: the hypothesis of a group that is printed in full. -/
def pickRepresentative (g : SigGroup) : Member := g.members.foldl longer g.front

/-- The members that are listed behind the representative. -/
def alternates (g : SigGroup) : List Member :=
  g.members.filter fun m => m.2 ≠ g.pickRepresentative.2

end SigGroup

/-- The containers of the loop over the hypotheses. -/
structure GroupTable where
  /-- `groups`. -/
  groups : List SigGroup
  /-- `groupOrder`. -/
  groupOrder : List HypoSig

/-- The group of one hypothesis. -/
def sigSingle (m : Member) : SigGroup := ⟨computeSignature getNodeByID m.1, m, []⟩

/-- `emplace` of a signature, and `push_back` of the hypothesis. -/
def GroupTable.add (t : GroupTable) (m : Member) : GroupTable where
  groups := mergeInto SigGroup.sig SigGroup.append (sigSingle getNodeByID m) t.groups
  groupOrder :=
    let sig := computeSignature getNodeByID m.1
    -- A signature takes its place in the report when it is first seen.
    if sig ∈ t.groups.map SigGroup.sig then t.groupOrder else t.groupOrder ++ [sig]

/-- The containers after the loop. -/
def groupTable (hs : List RaceHypothesis) : GroupTable :=
  hs.zipIdx.foldl (GroupTable.add getNodeByID) ⟨[], []⟩

/-- What is written about a group. -/
structure ReportEntry where
  /-- `mainH`. -/
  primary : RaceHypothesis
  /-- The hypotheses in the list of alternates. -/
  alternates : List RaceHypothesis
  deriving DecidableEq

/-- The turn of the second loop for a group. -/
def SigGroup.entry (g : SigGroup) : ReportEntry :=
  ⟨g.pickRepresentative.1, g.alternates.map Prod.fst⟩

/-- A part of the report. -/
inductive ReportItem
  /-- `toString` of a bug. -/
  | bug (text : String)
  /-- A group of hypotheses. -/
  | group (entry : ReportEntry)
  deriving DecidableEq

/-- The loop over `groupOrder`, with `groups.at`. -/
def GroupTable.entries (t : GroupTable) : List ReportEntry :=
  (t.groupOrder.filterMap fun sig => t.groups.find? fun g => g.sig = sig).map SigGroup.entry

/-- `printResults`: the parts of the report in their order, or nothing if there is no bug. -/
def printResults (externalBugs detectedBugs : List String) (hs : List RaceHypothesis) :
    Option (List ReportItem) :=
  let t := groupTable getNodeByID hs
  if detectedBugs.length + externalBugs.length + t.groups.length = 0 then none
  else
    some (externalBugs.map .bug ++ detectedBugs.map .bug ++ t.entries.map .group)

/-- The group that a part is about. -/
def ReportItem.entry : ReportItem → Option ReportEntry
  | .bug _ => none
  | .group entry => some entry

/-- The groups that are written. -/
def reportedGroups (report : Option (List ReportItem)) : List ReportEntry :=
  (report.getD []).filterMap ReportItem.entry

/-- The hypotheses of a group. -/
def ReportEntry.members (e : ReportEntry) : List RaceHypothesis := e.primary :: e.alternates

/-- A group with its alternates in no order. -/
def ReportEntry.unordered (e : ReportEntry) : RaceHypothesis × Multiset RaceHypothesis :=
  (e.primary, e.alternates)

/-- The groups are those of the signatures, and nothing is lost. -/
structure IsReport (hs : List RaceHypothesis) (entries : List ReportEntry) : Prop where
  /-- Each hypothesis is in one group, as the primary one or as an alternate. -/
  partition : (entries.flatMap ReportEntry.members).Perm hs
  /-- The hypotheses of a group have one signature. -/
  sameSig : ∀ e ∈ entries, ∀ h ∈ e.members,
    computeSignature getNodeByID h = computeSignature getNodeByID e.primary
  /-- Different groups have different signatures. -/
  nodup_sigs : (entries.map fun e => computeSignature getNodeByID e.primary).Nodup
  /-- The description of the primary one is the longest, and its id is the smallest of those. -/
  primary : ∀ e ∈ entries, ∀ h ∈ e.alternates,
    h.description.utf8ByteSize < e.primary.description.utf8ByteSize ∨
      h.description.utf8ByteSize = e.primary.description.utf8ByteSize ∧ e.primary.id < h.id

/-! ### The two containers -/

variable {getNodeByID} {hs hs' : List RaceHypothesis} {g : SigGroup} {m : Member}

theorem sig_append (g g' : SigGroup) (_ : g'.sig = g.sig) : (g.append g').sig = g.sig := rfl

/-- The groups are those that the signatures make. -/
theorem groups_table (hs : List RaceHypothesis) : (groupTable getNodeByID hs).groups =
    mergeByKey SigGroup.sig SigGroup.append (hs.zipIdx.map (sigSingle getNodeByID)) := by
  have hfold : ∀ (l : List Member) (t : GroupTable),
      (l.foldl (GroupTable.add getNodeByID) t).groups =
        (l.map (sigSingle getNodeByID)).foldl
          (fun groups g => mergeInto SigGroup.sig SigGroup.append g groups) t.groups := by
    intro l
    induction l with
    | nil => exact fun t => rfl
    | cons m l ih => exact fun t => ih (t.add getNodeByID m)
  exact hfold hs.zipIdx ⟨[], []⟩

/-- The order that is kept apart has the signatures of the groups, each once. -/
def GroupTable.Agrees (t : GroupTable) : Prop :=
  t.groupOrder.Nodup ∧ ∀ sig, sig ∈ t.groupOrder ↔ sig ∈ t.groups.map SigGroup.sig

/-- Adding a member keeps the table in step with the signatures. -/
theorem GroupTable.Agrees.add {t : GroupTable} (h : t.Agrees) (m : Member) :
    (t.add getNodeByID m).Agrees := by
  obtain ⟨hnodup, hmem⟩ := h
  have hkeys : ∀ sig, sig ∈ (t.add getNodeByID m).groups.map SigGroup.sig ↔
      sig = computeSignature getNodeByID m.1 ∨ sig ∈ t.groups.map SigGroup.sig := fun sig =>
    mem_map_key_mergeInto sig_append
  unfold GroupTable.Agrees
  simp only [hkeys]
  by_cases hold : computeSignature getNodeByID m.1 ∈ t.groups.map SigGroup.sig
  · have horder : (t.add getNodeByID m).groupOrder = t.groupOrder := if_pos hold
    rw [horder]
    refine ⟨hnodup, fun sig => ?_⟩
    rw [hmem]
    exact ⟨Or.inr, fun hsig => hsig.elim (fun heq => heq ▸ hold) id⟩
  · have horder : (t.add getNodeByID m).groupOrder =
        t.groupOrder ++ [computeSignature getNodeByID m.1] := if_neg hold
    rw [horder]
    refine ⟨?_, fun sig => ?_⟩
    · refine List.nodup_append.mpr ⟨hnodup, List.nodup_singleton _, fun sig hsig sig' hsig' => ?_⟩
      rw [List.mem_singleton.mp hsig']
      exact fun heq => hold ((hmem _).mp (heq ▸ hsig))
    · rw [List.mem_append, List.mem_singleton, hmem]
      exact or_comm

/-- The groups of every list are in step with the signatures. -/
theorem agrees_groupTable (hs : List RaceHypothesis) : (groupTable getNodeByID hs).Agrees :=
  List.foldlRecOn hs.zipIdx _ (motive := GroupTable.Agrees) ⟨List.nodup_nil, by simp⟩
    fun _ h m _ => h.add m

/-- A group of one has the signature of its hypothesis. -/
theorem sigs_single : (hs.zipIdx.map (sigSingle getNodeByID)).map SigGroup.sig =
    hs.map (computeSignature getNodeByID) := by
  calc (hs.zipIdx.map (sigSingle getNodeByID)).map SigGroup.sig
      = (hs.zipIdx.map Prod.fst).map (computeSignature getNodeByID) := by
        rw [List.map_map, List.map_map]
        rfl
    _ = hs.map (computeSignature getNodeByID) := by rw [List.zipIdx_map_fst]

/-- The signatures of the groups are those of the hypotheses, each once. -/
theorem sigs_groups : ((groupTable getNodeByID hs).groups.map SigGroup.sig).Nodup ∧
    ∀ sig, sig ∈ (groupTable getNodeByID hs).groups.map SigGroup.sig ↔
      sig ∈ hs.map (computeSignature getNodeByID) := by
  have hkeys := keys_mergeByKey sig_append (hs.zipIdx.map (sigSingle getNodeByID))
  rwa [sigs_single, ← groups_table] at hkeys

/-- The members of a group are the hypotheses with its signature, in their order. -/
theorem members_of_mem_table (hg : g ∈ (groupTable getNodeByID hs).groups) :
    g.members = hs.zipIdx.filter fun m => computeSignature getNodeByID m.1 = g.sig := by
  rw [groups_table] at hg
  have hmembers := eq_flatMap_group_of_mem_mergeByKey (f := SigGroup.members) sig_append
    (fun _ _ => rfl) hg
  -- Each group that is merged has one member.
  rw [hmembers, List.filter_map, List.flatMap_map]
  exact List.flatMap_singleton' _

/-! ### The members of a group -/

/-- A member is not to be preferred to another one. -/
def NotLonger (m best : Member) : Prop :=
  m.1.description.utf8ByteSize < best.1.description.utf8ByteSize ∨
    m.1.description.utf8ByteSize = best.1.description.utf8ByteSize ∧ best.1.id ≤ m.1.id

/-- The key of this order: the longest description first, then the smallest id. -/
def repKey (h : RaceHypothesis) : ℕᵒᵈ ×ₗ String :=
  toLex (OrderDual.toDual h.description.utf8ByteSize, h.id)

/-- Not longer means that the key of the representative is not smaller. -/
theorem notLonger_iff {m best : Member} : NotLonger m best ↔ repKey best.1 ≤ repKey m.1 := by
  simp only [NotLonger, repKey, Prod.Lex.toLex_le_toLex, OrderDual.toDual_lt_toDual,
    OrderDual.toDual_inj]
  rw [eq_comm]

/-- The better of two members is one of them and no worse than either. -/
theorem longer_spec (best m : Member) :
    (SigGroup.longer best m = best ∨ SigGroup.longer best m = m) ∧
      NotLonger best (SigGroup.longer best m) ∧ NotLonger m (SigGroup.longer best m) := by
  have hlonger : (best.1.description.utf8ByteSize < m.1.description.utf8ByteSize ||
      (m.1.description.utf8ByteSize = best.1.description.utf8ByteSize && m.1.id < best.1.id)) =
        true ↔ repKey m.1 < repKey best.1 := by
    simp only [repKey, Prod.Lex.toLex_lt_toLex, OrderDual.toDual_lt_toDual, OrderDual.toDual_inj,
      Bool.or_eq_true, Bool.and_eq_true, decide_eq_true_eq]
  unfold SigGroup.longer
  simp only [notLonger_iff]
  split
  next h => exact ⟨Or.inr rfl, (hlonger.mp h).le, le_rfl⟩
  next h => exact ⟨Or.inl rfl, le_rfl, not_lt.mp (mt hlonger.mpr h)⟩

/-- The representative is a member, and no other one is to be preferred. -/
theorem SigGroup.pickRepresentative_spec (g : SigGroup) :
    g.pickRepresentative ∈ g.members ∧
      ∀ m ∈ g.members, repKey g.pickRepresentative.1 ≤ repKey m.1 := by
  have hspec := foldl_better_spec (R := NotLonger) (fun m => notLonger_iff.mpr le_rfl)
    (fun a b c hab hbc => notLonger_iff.mpr ((notLonger_iff.mp hbc).trans (notLonger_iff.mp hab)))
    longer_spec g.front g.members
  obtain ⟨hmem, hall⟩ := hspec
  refine ⟨?_, fun m hm => notLonger_iff.mp (hall m (List.mem_cons_of_mem _ hm))⟩
  rcases List.mem_cons.mp hmem with heq | hmem
  · rw [SigGroup.pickRepresentative, heq]
    exact List.mem_cons_self
  · exact hmem

/-- The representative and the alternates are the members. -/
theorem perm_cons_alternates (hg : g ∈ (groupTable getNodeByID hs).groups) :
    (g.pickRepresentative :: g.alternates).Perm g.members := by
  have hmembers := members_of_mem_table hg
  have hposition : ∀ m ∈ g.members, hs[m.2]? = some m.1 := by
    intro m hm
    rw [hmembers] at hm
    exact List.mk_mem_zipIdx_iff_getElem?.mp (List.mem_filter.mp hm).1
  have hnodup : g.members.Nodup := by
    have hpositions : (hs.zipIdx.map Prod.snd).Nodup := by
      rw [List.zipIdx_map_snd]
      exact List.nodup_range'
    rw [hmembers]
    exact (List.Nodup.of_map _ hpositions).filter _
  have hrep := g.pickRepresentative_spec.1
  -- A member is known by its position.
  have halternates : g.alternates = g.members.erase g.pickRepresentative := by
    rw [hnodup.erase_eq_filter, SigGroup.alternates]
    refine List.filter_congr fun m hm => ?_
    have hsame : m.2 = g.pickRepresentative.2 → m = g.pickRepresentative := by
      intro h
      have hm' := hposition m hm
      rw [h, hposition _ hrep] at hm'
      exact Prod.ext (Option.some.inj hm').symm h
    by_cases h : m = g.pickRepresentative
    · simp [h]
    · simp [h, mt hsame h]
  rw [halternates]
  exact (List.perm_cons_erase hrep).symm

/-- The hypotheses of a group are those with its signature. -/
theorem map_fst_members (hg : g ∈ (groupTable getNodeByID hs).groups) :
    g.members.map Prod.fst = hs.filter fun h => computeSignature getNodeByID h = g.sig := by
  rw [members_of_mem_table hg]
  calc (hs.zipIdx.filter fun m => computeSignature getNodeByID m.1 = g.sig).map Prod.fst
      = (hs.zipIdx.map Prod.fst).filter fun h => computeSignature getNodeByID h = g.sig := by
        rw [List.filter_map]
        rfl
    _ = hs.filter fun h => computeSignature getNodeByID h = g.sig := by rw [List.zipIdx_map_fst]

/-- The members of a group are the hypotheses with its signature. -/
theorem members_entry_perm (hg : g ∈ (groupTable getNodeByID hs).groups) :
    g.entry.members.Perm (hs.filter fun h => computeSignature getNodeByID h = g.sig) := by
  rw [← map_fst_members hg]
  exact (perm_cons_alternates hg).map Prod.fst

/-! ### What is written -/

/-- The groups are written in another order than that of the map. -/
theorem entries_perm (hs : List RaceHypothesis) : (groupTable getNodeByID hs).entries.Perm
    ((groupTable getNodeByID hs).groups.map SigGroup.entry) := by
  obtain ⟨hnodup, hmem⟩ : (groupTable getNodeByID hs).Agrees := agrees_groupTable hs
  have horder : (groupTable getNodeByID hs).groupOrder.Perm
      ((groupTable getNodeByID hs).groups.map SigGroup.sig) :=
    (List.perm_ext_iff_of_nodup hnodup sigs_groups.1).mpr hmem
  exact (filterMap_find_perm sigs_groups.1 horder).map SigGroup.entry

/-- The groups that are written are those of the table, also where nothing is written. -/
theorem reportedGroups_printResults (externalBugs detectedBugs : List String) :
    reportedGroups (printResults getNodeByID externalBugs detectedBugs hs) =
      (groupTable getNodeByID hs).entries := by
  unfold printResults
  dsimp only
  split
  next htotal =>
    have hgroups : (groupTable getNodeByID hs).groups = [] := by
      rw [← List.length_eq_zero_iff]
      omega
    have hperm : (groupTable getNodeByID hs).entries.Perm _ := entries_perm hs
    rw [hgroups, List.map_nil] at hperm
    rw [hperm.eq_nil]
    rfl
  next =>
    have hbugs : ∀ texts : List String, (texts.map .bug).filterMap ReportItem.entry = [] := by
      intro texts
      rw [List.filterMap_map]
      exact List.filterMap_eq_nil_iff.mpr fun _ _ => rfl
    have hentries : ∀ entries : List ReportEntry,
        (entries.map .group).filterMap ReportItem.entry = entries := by
      intro entries
      rw [List.filterMap_map]
      exact List.filterMap_some
    rw [reportedGroups, Option.getD_some, List.filterMap_append, List.filterMap_append, hbugs, hbugs,
      hentries, List.nil_append, List.nil_append]

/-- A hypothesis is a member exactly if it has the group's signature. -/
theorem mem_members_entry_iff (hg : g ∈ (groupTable getNodeByID hs).groups) {h : RaceHypothesis} :
    h ∈ g.entry.members ↔ h ∈ hs ∧ computeSignature getNodeByID h = g.sig := by
  rw [(members_entry_perm hg).mem_iff, List.mem_filter, decide_eq_true_eq]

/-- The groups have all hypotheses. -/
theorem flatMap_entry_perm (hs : List RaceHypothesis) :
    ((groupTable getNodeByID hs).groups.flatMap fun g => g.entry.members).Perm hs := by
  have hmembers : ((groupTable getNodeByID hs).groups.flatMap SigGroup.members).Perm hs.zipIdx := by
    have hsingle : (hs.zipIdx.map (sigSingle getNodeByID)).flatMap SigGroup.members =
        hs.zipIdx := by
      rw [List.flatMap_map]
      exact List.flatMap_singleton' _
    have hperm : ((groupTable getNodeByID hs).groups.flatMap SigGroup.members).Perm
        ((hs.zipIdx.map (sigSingle getNodeByID)).flatMap SigGroup.members) := by
      rw [groups_table]
      exact flatMap_mergeByKey_perm (fun _ _ => rfl) _
    rwa [hsingle] at hperm
  have hentries : ((groupTable getNodeByID hs).groups.flatMap fun g => g.entry.members).Perm
      ((groupTable getNodeByID hs).groups.flatMap fun g => g.members.map Prod.fst) :=
    List.Perm.flatMap_left _ fun g hg => (perm_cons_alternates hg).map Prod.fst
  rw [← List.map_flatMap] at hentries
  have hfst := hmembers.map Prod.fst
  rw [List.zipIdx_map_fst] at hfst
  exact hentries.trans hfst

/-- The primary of a group has its signature. -/
theorem sig_primary (hg : g ∈ (groupTable getNodeByID hs).groups) :
    computeSignature getNodeByID g.entry.primary = g.sig :=
  ((mem_members_entry_iff hg).mp List.mem_cons_self).2

/-- The primary hypothesis of a group is the first one by length and id. -/
theorem repKey_primary_le (hg : g ∈ (groupTable getNodeByID hs).groups) {h : RaceHypothesis}
    (hh : h ∈ hs) (hsig : computeSignature getNodeByID h = g.sig) :
    repKey g.entry.primary ≤ repKey h := by
  have hmem : h ∈ g.members.map Prod.fst := by
    rw [map_fst_members hg]
    exact List.mem_filter.mpr ⟨hh, decide_eq_true hsig⟩
  obtain ⟨m, hm, rfl⟩ := List.mem_map.mp hmem
  exact g.pickRepresentative_spec.2 m hm

/-- Two hypotheses with one key are the same. -/
theorem eq_of_repKey_eq (hids : (hs.map fun h => h.id).Nodup) {h h' : RaceHypothesis} (hh : h ∈ hs)
    (hh' : h' ∈ hs) (heq : repKey h = repKey h') : h = h' :=
  List.inj_on_of_nodup_map hids hh hh' (Prod.mk.inj (toLex_inj.mp heq)).2

/-- The groups of the map are those of the signatures. -/
theorem isReport_groups (hids : (hs.map fun h => h.id).Nodup) :
    IsReport getNodeByID hs ((groupTable getNodeByID hs).groups.map SigGroup.entry) where
  partition := by
    rw [List.flatMap_map]
    exact flatMap_entry_perm hs
  sameSig e he h hh := by
    obtain ⟨g, hg, rfl⟩ := List.mem_map.mp he
    rw [sig_primary hg]
    exact ((mem_members_entry_iff hg).mp hh).2
  nodup_sigs := by
    have hsigs : ((groupTable getNodeByID hs).groups.map SigGroup.entry).map
        (fun e => computeSignature getNodeByID e.primary) =
          (groupTable getNodeByID hs).groups.map SigGroup.sig := by
      rw [List.map_map]
      exact List.map_congr_left fun g hg => sig_primary hg
    rw [hsigs]
    exact sigs_groups.1
  primary e he h hh := by
    obtain ⟨g, hg, rfl⟩ := List.mem_map.mp he
    have hprimary := (mem_members_entry_iff hg).mp List.mem_cons_self
    obtain ⟨hmem, hsig⟩ := (mem_members_entry_iff hg).mp (List.mem_cons_of_mem _ hh)
    -- Ids are different, so the primary is not among its alternates.
    have hnodup : g.entry.members.Nodup :=
      (members_entry_perm hg).nodup_iff.mpr ((List.Nodup.of_map _ hids).filter _)
    have hne : g.entry.primary ≠ h := fun heq => (List.nodup_cons.mp hnodup).1 (heq ▸ hh)
    have hlt : repKey g.entry.primary < repKey h :=
      (repKey_primary_le hg hmem hsig).lt_of_ne
        fun heq => hne (eq_of_repKey_eq hids hprimary.1 hmem heq)
    -- The keys compare the lengths, the longest first, and then the ids.
    rw [repKey, repKey, Prod.Lex.toLex_lt_toLex] at hlt
    simp only [OrderDual.toDual_lt_toDual, OrderDual.toDual_inj] at hlt
    exact hlt.imp_right fun h => ⟨h.1.symm, h.2⟩

/-- The order in which the groups are written does not matter. -/
theorem IsReport.perm {entries entries' : List ReportEntry} (h : IsReport getNodeByID hs entries)
    (hperm : entries'.Perm entries) : IsReport getNodeByID hs entries' where
  partition := (hperm.flatMap_right _).trans h.partition
  sameSig e he := h.sameSig e (hperm.mem_iff.mp he)
  nodup_sigs := (hperm.map _).nodup_iff.mpr h.nodup_sigs
  primary e he := h.primary e (hperm.mem_iff.mp he)

/-! ### The order of the hypotheses -/

/-- A primary hypothesis with its alternates, told from the hypotheses alone. -/
def IsGroupOf (getNodeByID : NodeId → Option ReportNode) (hs : List RaceHypothesis)
    (x : RaceHypothesis × Multiset RaceHypothesis) : Prop :=
  x.1 ∈ hs ∧
    (∀ h ∈ hs, computeSignature getNodeByID h = computeSignature getNodeByID x.1 →
      repKey x.1 ≤ repKey h) ∧
    x.1 ::ₘ x.2 =
      (hs.filter fun h => computeSignature getNodeByID h = computeSignature getNodeByID x.1)

/-- The groups are told from the hypotheses. -/
theorem mem_unordered_groups_iff (hids : (hs.map fun h => h.id).Nodup)
    {x : RaceHypothesis × Multiset RaceHypothesis} :
    x ∈ ((groupTable getNodeByID hs).groups.map SigGroup.entry).map ReportEntry.unordered ↔
      IsGroupOf getNodeByID hs x := by
  rw [List.map_map]
  constructor
  · intro hx
    obtain ⟨g, hg, rfl⟩ := List.mem_map.mp hx
    have hsig := sig_primary hg
    refine ⟨((mem_members_entry_iff hg).mp List.mem_cons_self).1, fun h hh heq => ?_, ?_⟩
    · exact repKey_primary_le hg hh (heq.trans hsig)
    · show ((g.entry.members : List RaceHypothesis) : Multiset RaceHypothesis) = _
      have hperm := members_entry_perm hg
      rw [← hsig] at hperm
      exact Multiset.coe_eq_coe.mpr hperm
  · rintro ⟨hmem, hle, halternates⟩
    have hsigs : computeSignature getNodeByID x.1 ∈
        (groupTable getNodeByID hs).groups.map SigGroup.sig :=
      (sigs_groups.2 _).mpr (List.mem_map_of_mem hmem)
    obtain ⟨g, hg, hsig⟩ := List.mem_map.mp hsigs
    -- Both are first in their group.
    have hprimary : g.entry.primary = x.1 := by
      have hprimary := (mem_members_entry_iff hg).mp List.mem_cons_self
      exact eq_of_repKey_eq hids hprimary.1 hmem (le_antisymm (repKey_primary_le hg hmem hsig.symm)
        (hle _ hprimary.1 (hprimary.2.trans hsig)))
    refine List.mem_map.mpr ⟨g, hg, Prod.ext hprimary ?_⟩
    have hperm := members_entry_perm hg
    rw [hsig] at hperm
    have hcons : g.entry.primary ::ₘ (g.entry.alternates : Multiset RaceHypothesis) =
        x.1 ::ₘ x.2 := (Multiset.coe_eq_coe.mpr hperm).trans halternates.symm
    rw [hprimary] at hcons
    exact (Multiset.cons_inj_right _).mp hcons

/-- The groups are told from the hypotheses in no order. -/
theorem isGroupOf_perm (hperm : hs'.Perm hs) {x : RaceHypothesis × Multiset RaceHypothesis} :
    IsGroupOf getNodeByID hs' x ↔ IsGroupOf getNodeByID hs x := by
  have hfilter : ((hs'.filter fun h =>
      computeSignature getNodeByID h = computeSignature getNodeByID x.1 : List RaceHypothesis) :
        Multiset RaceHypothesis) = (hs.filter fun h =>
          computeSignature getNodeByID h = computeSignature getNodeByID x.1) :=
    Multiset.coe_eq_coe.mpr (hperm.filter _)
  simp only [IsGroupOf, hperm.mem_iff, hfilter]

/-- No two groups are the same up to the order of their alternates. -/
theorem nodup_unordered_groups :
    (((groupTable getNodeByID hs).groups.map SigGroup.entry).map ReportEntry.unordered).Nodup := by
  have hsigs : (((groupTable getNodeByID hs).groups.map SigGroup.entry).map
      ReportEntry.unordered).map (fun x => computeSignature getNodeByID x.1) =
        (groupTable getNodeByID hs).groups.map SigGroup.sig := by
    rw [List.map_map, List.map_map]
    exact List.map_congr_left fun g hg => sig_primary hg
  refine List.Nodup.of_map (fun x => computeSignature getNodeByID x.1) ?_
  rw [hsigs]
  exact sigs_groups.1

variable (getNodeByID hs) in
/-- Hypotheses with different ids are all reported, each in one group, and the groups and their
primary hypotheses do not depend on the order of the hypotheses. -/
theorem printResults_isReport (externalBugs detectedBugs : List String)
    (hids : (hs.map fun h => h.id).Nodup) :
    IsReport getNodeByID hs
        (reportedGroups (printResults getNodeByID externalBugs detectedBugs hs)) ∧
      ∀ hs', hs'.Perm hs →
        ((reportedGroups (printResults getNodeByID externalBugs detectedBugs hs')).map
          ReportEntry.unordered).Perm
          ((reportedGroups (printResults getNodeByID externalBugs detectedBugs hs)).map
            ReportEntry.unordered) := by
  simp only [reportedGroups_printResults]
  refine ⟨(isReport_groups hids).perm (entries_perm hs), fun hs' hperm => ?_⟩
  have hids' : (hs'.map fun h => h.id).Nodup := (hperm.map _).nodup_iff.mpr hids
  refine ((entries_perm hs').map _).trans (List.Perm.trans ?_ ((entries_perm hs).map _).symm)
  refine (List.perm_ext_iff_of_nodup nodup_unordered_groups nodup_unordered_groups).mpr fun x => ?_
  rw [mem_unordered_groups_iff hids', mem_unordered_groups_iff hids, isGroupOf_perm hperm]

end Report

/-! ### Two findings on one field -/

/-- A store to a field and a load of another one. -/
def storeAndLoad (id : NodeId) : Option ReportNode :=
  if id = 1 then some ⟨some "dev->state[i] = 1", some "probe"⟩
  else if id = 2 then some ⟨some "x = read(dev->lock)", some "reset"⟩
  else none

/-- A hypothesis about one node. -/
def aboutNode (id description : String) (node : NodeId) : RaceHypothesis where
  id := id
  bugCategory := "data_race"
  nodes := [("access", node)]
  constraints := []
  description := description
  severity := "high"

/-- The finding with the longer description is the primary one of the two on the store. -/
theorem storeAndLoad_report :
    reportedGroups (printResults storeAndLoad [] []
        [aboutNode "h1" "torn store" 1, aboutNode "h2" "load" 2,
          aboutNode "h3" "unlocked store" 1]) =
      [⟨aboutNode "h3" "unlocked store" 1, [aboutNode "h1" "torn store" 1]⟩,
        ⟨aboutNode "h2" "load" 2, []⟩] ∧
    IsReport storeAndLoad
      [aboutNode "h1" "torn store" 1, aboutNode "h2" "load" 2, aboutNode "h3" "unlocked store" 1]
      [⟨aboutNode "h3" "unlocked store" 1, [aboutNode "h1" "torn store" 1]⟩,
        ⟨aboutNode "h2" "load" 2, []⟩] := by
  have hreport : reportedGroups (printResults storeAndLoad [] []
      [aboutNode "h1" "torn store" 1, aboutNode "h2" "load" 2,
        aboutNode "h3" "unlocked store" 1]) =
      [⟨aboutNode "h3" "unlocked store" 1, [aboutNode "h1" "torn store" 1]⟩,
        ⟨aboutNode "h2" "load" 2, []⟩] := by
    decide +kernel
  refine ⟨hreport, ?_⟩
  rw [← hreport]
  exact (printResults_isReport storeAndLoad _ [] [] (by decide)).1

end Lace.Report
