import Lace.Library.Search
import Lace.Phasar.Footprint

/-!
# Entry tiering

All discovered entries seed the call graph, but only some of them become the roots of threads. An
entry that is nothing but an exported symbol is dropped if another entry reaches it by a few direct
calls, or else if it conflicts with nothing that would make it a root of its own.

## Main definitions

* `EntryTiering`: the module, the entries and their signals;
* `EntryTiering.threadRootEntryPoints`: the function of the source;
* `EntryTiering.IsRoot`: the entries that are roots on their own account;
* `EntryTiering.Coverage`: what is dropped as reachable is reached from a root.

## Main results

* `reachesFunctionWithin_iff`: the bounded search finds the short chains of direct calls;
* `EntryTiering.coverage_iff`: when the tiering keeps coverage;
* `EntryTiering.coverage_of_acyclic`: it does where no entries reach each other in a cycle and none
  is dropped for the lack of a conflict.
-/

namespace Lace

open Library

/-! ### Signals -/

/-- The signals of an entry, one bit for each. -/
abbrev SignalMask := BitVec 32

/-- `SIG_NONE`: nothing speaks for an entry. -/
def sigNone : SignalMask := 0

/-- `SIG_SECTION_INIT`: the function lies in `.init.text` or `.exit.text`. -/
def sigSectionInit : SignalMask := 1 <<< 0

/-- `SIG_EXPORT_SYMBOL`: the function is exported. -/
def sigExportSymbol : SignalMask := 1 <<< 1

/-- `SIG_SYSCALL`: the function is a system call. -/
def sigSyscall : SignalMask := 1 <<< 2

/-- `SIG_OPS_MEMBER`: the function is a member of a table of operations. -/
def sigOpsMember : SignalMask := 1 <<< 3

/-- `SIG_INDIRECT_FORK`: the function is handed to something that runs it. -/
def sigIndirectFork : SignalMask := 1 <<< 4

/-- `isStrongThreadSignal`: something besides an export speaks for the entry. -/
def isStrongThreadSignal (s : SignalMask) : Bool :=
  s &&& (sigSectionInit ||| sigSyscall ||| sigOpsMember ||| sigIndirectFork) ≠ 0

/-- `isPureExportSignal`: nothing but an export speaks for the entry. -/
def isPureExportSignal (s : SignalMask) : Bool := s = sigExportSymbol

/-- `opsOrInitOnlyStrong`: only a table or a section speaks for the entry. -/
def opsOrInitOnlyStrong (sig : SignalMask) : Bool :=
  if !isStrongThreadSignal sig then false
  -- System calls and indirect forks are roots on their own.
  else if sig &&& (sigSyscall ||| sigIndirectFork) ≠ 0 then false
  else sig &&& (sigOpsMember ||| sigSectionInit) ≠ 0

/-! ### Reachability -/

namespace Module

variable (M : Module)

/-- The search of `reachesFunctionWithin`. -/
def reachProblem (dst : String) (maxDepth : ℕ) : SearchProblem String where
  next := M.directCalls
  goal name := name = dst
  keep _ := true
  cap := some maxDepth

/-- `reachesFunctionWithin`: a chain of direct calls leads from one function to another. -/
def reachesFunctionWithin (src dst : String) (maxDepth : ℕ) : Bool :=
  if (M.getFunction src).isNone || (M.getFunction dst).isNone || src = dst || maxDepth = 0 then
    false
  else (M.reachProblem dst maxDepth).searchFrom (M.functions.length + 2) src

/-- A direct call of a defined function. -/
def Calls (a b : String) : Prop := b ∈ M.directCalls a

variable {M}

/-- A function with a definition is found. -/
theorem getFunction_isSome {name : String} (h : (M.definition name).isSome) :
    (M.getFunction name).isSome := by
  unfold definition at h
  cases hname : M.getFunction name with
  | none => simp [hname] at h
  | some f => rfl

/-- A caller is a function of the module. -/
theorem Calls.isSome_left {a b : String} (h : M.Calls a b) : (M.getFunction a).isSome := by
  apply getFunction_isSome
  cases hdef : M.definition a with
  | none => simp [Calls, directCalls, hdef] at h
  | some instructions => rfl

/-- A callee is a function of the module. -/
theorem Calls.isSome_right {a b : String} (h : M.Calls a b) : (M.getFunction b).isSome :=
  getFunction_isSome (isSome_of_mem_directCalls h)

/-- The function that is found has the name that was asked for. -/
theorem name_of_getFunction {name : String} {f : Function} (h : M.getFunction name = some f) :
    f.name = name := by
  simpa using List.find?_some h

/-- A function that is found is listed by its name. -/
theorem mem_names_of_isSome {name : String} (h : (M.getFunction name).isSome) :
    name ∈ M.functions.map Function.name := by
  obtain ⟨f, hf⟩ := Option.isSome_iff_exists.mp h
  exact List.mem_map.mpr ⟨f, List.mem_of_find?_eq_some hf, name_of_getFunction hf⟩

/-- The callees of a module are among its functions. -/
theorem Calls.mem_names {a b : String} (h : M.Calls a b) :
    b ∈ (M.functions.map Function.name).toFinset :=
  List.mem_toFinset.mpr (mem_names_of_isSome h.isSome_right)

/-- The bounded search finds the other functions that a chain of at most `maxDepth` calls leads
to. -/
theorem reachesFunctionWithin_iff {src dst : String} {maxDepth : ℕ} :
    M.reachesFunctionWithin src dst maxDepth = true ↔
      src ≠ dst ∧ ∃ n < maxDepth, ∃ s, Steps M.Calls src n s ∧ M.Calls s dst := by
  have hcard : (M.functions.map Function.name).toFinset.card + 1 < M.functions.length + 2 := by
    have hlen := card_toFinset_map_le Function.name M.functions
    omega
  have hsearch : (M.reachProblem dst maxDepth).searchFrom (M.functions.length + 2) src = true ↔
      ∃ n < maxDepth, ∃ s, Steps M.Calls src n s ∧ M.Calls s dst :=
    SearchProblem.search_target_iff _ (fun s t => Calls.mem_names) hcard
  unfold reachesFunctionWithin
  split_ifs with hguard
  · constructor
    · exact False.elim
    · -- A chain of calls has defined ends, and there is none without a call.
      rintro ⟨hne, n, hn, s, hsteps, hcalls⟩
      have hsrc : (M.getFunction src).isSome := by
        rcases (exists_steps_iff.mp ⟨n, hsteps⟩).cases_head with rfl | ⟨t, ht, -⟩
        · exact hcalls.isSome_left
        · exact ht.isSome_left
      have hzero : maxDepth ≠ 0 := by omega
      simp [Option.isNone_iff_eq_none, Option.isSome_iff_ne_none.mp hsrc,
        Option.isSome_iff_ne_none.mp hcalls.isSome_right, hne, hzero] at hguard
  · rw [hsearch]
    simp only [Bool.or_eq_true, decide_eq_true_eq, not_or] at hguard
    exact (and_iff_right hguard.1.2).symm

/-- What the search finds is called, directly or through other functions. -/
theorem calls_of_reachesFunctionWithin {src dst : String} {maxDepth : ℕ}
    (h : M.reachesFunctionWithin src dst maxDepth = true) :
    Relation.ReflTransGen M.Calls src dst := by
  obtain ⟨-, n, -, s, hsteps, hcalls⟩ := reachesFunctionWithin_iff.mp h
  exact (exists_steps_iff.mp ⟨n, hsteps⟩).tail hcalls

end Module

/-! ### The tiering -/

/-- What the tiering reads. -/
structure EntryTiering where
  /-- The module of the IR database. -/
  module : Module
  /-- `entryPoints`. -/
  entryPoints : List String
  /-- `entrySignalMasks_`; an entry without a mask has none of the signals. -/
  entrySignalMasks : String → SignalMask
  /-- `LACE_EXP_REACH_PRUNE_STRONG` is set. -/
  kExpReachStrong : Bool

/-- The depth of the footprints and of the searches. -/
def tierDepth : ℕ := 4

/-- `kThinRootBudget`: below this many roots, weak entries are added. -/
def kThinRootBudget : ℕ := 16

/-- `kBroadAddCap`: how many weak entries are added at most. -/
def kBroadAddCap : ℕ := 48

/-- `WeakClass`: what decides about a weak entry. -/
structure WeakClass where
  /-- Another entry reaches it. -/
  reachable : Bool
  /-- It conflicts with a strong entry. -/
  cStrong : Bool
  deriving DecidableEq, Repr

/-- The variables of the loop that promotes the entries. -/
structure TieringState where
  /-- `broadAdded`. -/
  broadAdded : ℕ := 0
  /-- `kept`. -/
  kept : List String := []
  /-- `threadRootEntryPoints_`. -/
  threadRoots : List String := []
  /-- The entries that `weakPrunedReachable` counts. -/
  weakPrunedReachable : List String := []
  /-- The entries that `weakPrunedNoStrongConflict` counts. -/
  weakPrunedNoStrongConflict : List String := []
  deriving DecidableEq, Repr

namespace EntryTiering

variable (T : EntryTiering)

/-- `hasStrong`. -/
def hasStrong : Bool := T.entryPoints.any fun name => isStrongThreadSignal (T.entrySignalMasks name)

/-- `strongNames`: the entries with a strong signal. -/
def strongNames : List String :=
  T.entryPoints.filter fun name => isStrongThreadSignal (T.entrySignalMasks name)

/-- `footprints`: the fields that an entry touches, if it is defined. -/
def footprint (name : String) : Option Footprint :=
  (T.module.definition name).map fun _ => T.module.collectTierFootprint (tierDepth + 1) name {}

/-- `conflictsWithSet`: an entry shares a field with one of these, and one of the two writes it. -/
def conflictsWithSet (name : String) (cand : List String) : Bool :=
  match T.footprint name with
  | none => false
  | some fp => cand.any fun o => o ≠ name && (T.footprint o).any fp.conflict

/-- `reachableFromOtherEntry`: another entry runs it anyway. -/
def reachableFromOtherEntry (name : String) : Bool :=
  (T.module.getFunction name).isSome &&
    T.entryPoints.any fun o => o ≠ name && T.module.reachesFunctionWithin o name tierDepth

/-- The entry is nothing but an exported symbol, and the module has strong entries. -/
def isWeak (name : String) : Bool :=
  T.hasStrong && isPureExportSignal (T.entrySignalMasks name)

/-- `weakClass`: whether a weak entry is worth a thread of its own. -/
def weakClass (name : String) : WeakClass :=
  let reachable := T.reachableFromOtherEntry name
  { reachable, cStrong := if reachable then false else T.conflictsWithSet name T.strongNames }

/-- One round of the loop that counts the conservative roots. -/
def countsConservative (name : String) : Bool :=
  if isStrongThreadSignal (T.entrySignalMasks name) then true
  else if !T.isWeak name then true
  else !(T.weakClass name).reachable && (T.weakClass name).cStrong

/-- `conservativeCount`: how many roots the cautious choice has. -/
def conservativeCount : ℕ := T.entryPoints.countP T.countsConservative

/-- `broadMode`: there are so few roots that weak entries are added. -/
def broadMode : Bool := T.conservativeCount < kThinRootBudget

/-- The end of a round that keeps the entry. -/
def promote (s : TieringState) (name : String) : TieringState :=
  if name ∈ s.kept then s
  else { s with kept := name :: s.kept, threadRoots := s.threadRoots ++ [name] }

/-- One round of the loop that promotes the entries. -/
def round (s : TieringState) (name : String) : TieringState :=
  if T.isWeak name then
    -- Any other entry counts here, also one that is dropped itself.
    if (T.weakClass name).reachable then
      { s with weakPrunedReachable := s.weakPrunedReachable ++ [name] }
    else if (T.weakClass name).cStrong then promote s name
    -- The broad tier of a module with few roots.
    else if T.broadMode && s.broadAdded < kBroadAddCap && T.conflictsWithSet name T.entryPoints then
      promote { s with broadAdded := s.broadAdded + 1 } name
    else { s with weakPrunedNoStrongConflict := s.weakPrunedNoStrongConflict ++ [name] }
  -- The experiment drops strong entries that are reached, too.
  else if T.kExpReachStrong && opsOrInitOnlyStrong (T.entrySignalMasks name) &&
      T.reachableFromOtherEntry name then
    { s with weakPrunedReachable := s.weakPrunedReachable ++ [name] }
  else promote s name

/-- The state after the loop. -/
def tiering : TieringState := T.entryPoints.foldl T.round {}

/-- `threadRootEntryPoints_`: all entries if the loop kept none. -/
def threadRootEntryPoints : List String :=
  if T.tiering.threadRoots.isEmpty then T.entryPoints else T.tiering.threadRoots

/-! ### What the tiering promises -/

/-- What the loop drops because another entry reaches it is reached from a thread root. -/
def Coverage : Prop :=
  ∀ name ∈ T.tiering.weakPrunedReachable,
    ∃ root ∈ T.threadRootEntryPoints, Relation.ReflTransGen T.module.Calls root name

/-- The entry is dropped if another entry reaches it: a weak entry always, one that is strong only
as a member of an operations table or by its section with the experiment on. -/
def prunable (name : String) : Bool :=
  T.isWeak name || T.kExpReachStrong && opsOrInitOnlyStrong (T.entrySignalMasks name)

/-- The entry is weak and conflicts with no strong entry, but with some entry. -/
def isBroad (name : String) : Bool :=
  T.isWeak name && !T.conflictsWithSet name T.strongNames && T.conflictsWithSet name T.entryPoints

/-- The number of entries that ask for the broad tier. -/
def broadCount (names : List String) : ℕ :=
  names.countP fun o => !T.reachableFromOtherEntry o && T.isBroad o

/-- The position of an entry leaves room in the broad tier. -/
def HasRoom (names : List String) (name : String) : Prop :=
  ∃ before after, names = before ++ name :: after ∧ T.broadCount before < kBroadAddCap

/-- The entries that are roots on their own account: one that may not be dropped as reachable, or is
not reached by another entry, and is not weak, or conflicts with a strong entry, or with any entry
where the module has few roots and there is room. -/
structure IsRoot (names : List String) (name : String) : Prop where
  /-- The entry is listed. -/
  mem : name ∈ names
  /-- It is not dropped as reachable. -/
  unreached : T.prunable name → ¬T.reachableFromOtherEntry name
  /-- A weak entry conflicts. -/
  conflicts : T.isWeak name → T.conflictsWithSet name T.strongNames ∨
    T.broadMode ∧ T.conflictsWithSet name T.entryPoints ∧ T.HasRoom names name

/-- Every entry that is dropped as reachable is called, directly or through other functions, by an
entry that is a root on its own account; unless there is no such entry at all. -/
def RootsReach : Prop :=
  ∀ name ∈ T.entryPoints, T.prunable name → T.reachableFromOtherEntry name →
    (∃ root, T.IsRoot T.entryPoints root) →
      ∃ root, T.IsRoot T.entryPoints root ∧ Relation.ReflTransGen T.module.Calls root name

variable {T} {names : List String} {name : String}

/-! ### The loop -/

/-- What the loop has done after some entries. -/
structure LoopSpec (T : EntryTiering) (names : List String) (s : TieringState) : Prop where
  /-- The entries that the broad tier added. -/
  broad : s.broadAdded = if T.broadMode then min kBroadAddCap (T.broadCount names) else 0
  /-- The roots are the kept entries. -/
  kept : ∀ o, o ∈ s.kept ↔ o ∈ s.threadRoots
  /-- The roots. -/
  roots : ∀ o, o ∈ s.threadRoots ↔ T.IsRoot names o
  /-- The entries dropped as reachable. -/
  pruned : ∀ o, o ∈ s.weakPrunedReachable ↔
    o ∈ names ∧ T.prunable o = true ∧ T.reachableFromOtherEntry o = true

/-- One more name has room as long as the cap is not reached. -/
theorem hasRoom_concat (o : String) :
    T.HasRoom (names ++ [name]) o ↔
      T.HasRoom names o ∨ o = name ∧ T.broadCount names < kBroadAddCap := by
  constructor
  · rintro ⟨before, after, heq, hroom⟩
    -- The name with room is the last one, or stands in front of it.
    induction after using List.reverseRecOn with
    | nil =>
      obtain ⟨rfl, hname⟩ := List.append_inj' heq rfl
      exact .inr ⟨(List.cons.inj hname).1.symm, hroom⟩
    | append_singleton after x _ =>
      rw [← List.cons_append, ← List.append_assoc] at heq
      obtain ⟨rfl, -⟩ := List.append_inj' heq rfl
      exact .inl ⟨before, after, rfl, hroom⟩
  · rintro (⟨before, after, rfl, hroom⟩ | ⟨rfl, hroom⟩)
    · exact ⟨before, after ++ [name], by simp, hroom⟩
    · exact ⟨names, [], rfl, hroom⟩

/-- The round for the next entry makes it a root. -/
structure RootNext (T : EntryTiering) (names : List String) (name : String) : Prop where
  /-- It is not dropped as reachable. -/
  unreached : T.prunable name → ¬T.reachableFromOtherEntry name
  /-- A weak entry conflicts. -/
  conflicts : T.isWeak name → T.conflictsWithSet name T.strongNames ∨
    T.broadMode ∧ T.conflictsWithSet name T.entryPoints ∧ T.broadCount names < kBroadAddCap

/-- The roots after one more name are the earlier ones and, if it qualifies, that name. -/
theorem isRoot_concat (o : String) :
    T.IsRoot (names ++ [name]) o ↔ T.IsRoot names o ∨ o = name ∧ T.RootNext names o := by
  constructor
  · rintro ⟨hmem, hunreached, hconflicts⟩
    by_cases hold : T.IsRoot names o
    · exact .inl hold
    · -- An entry that is no root yet is the new one, or gets its room from the new position.
      by_cases hname : o = name
      · refine .inr ⟨hname, hunreached, fun hweak => ?_⟩
        rcases hconflicts hweak with hstrong | ⟨hbroad, hany, hroom⟩
        · exact .inl hstrong
        · rcases (hasRoom_concat o).mp hroom with hroom | ⟨-, hroom⟩
          · refine absurd ⟨?_, hunreached, fun _ => .inr ⟨hbroad, hany, hroom⟩⟩ hold
            obtain ⟨before, after, rfl, -⟩ := hroom
            exact List.mem_append_right _ List.mem_cons_self
          · exact .inr ⟨hbroad, hany, hroom⟩
      · have hmem' : o ∈ names := by simpa [hname] using hmem
        refine absurd ⟨hmem', hunreached, fun hweak => ?_⟩ hold
        simpa [hasRoom_concat, hname] using hconflicts hweak
  · rintro (⟨hmem, hunreached, hconflicts⟩ | ⟨rfl, hunreached, hconflicts⟩)
    · refine ⟨List.mem_append_left _ hmem, hunreached, fun hweak => ?_⟩
      exact (hconflicts hweak).imp_right fun ⟨hbroad, hany, hroom⟩ =>
        ⟨hbroad, hany, (hasRoom_concat o).mpr (.inl hroom)⟩
    · refine ⟨List.mem_append_right _ (List.mem_singleton_self o), hunreached, fun hweak => ?_⟩
      exact (hconflicts hweak).imp_right fun ⟨hbroad, hany, hroom⟩ =>
        ⟨hbroad, hany, (hasRoom_concat o).mpr (.inr ⟨rfl, hroom⟩)⟩

/-- A broad entry that no other entry reaches is counted. -/
@[simp]
theorem broadCount_concat : T.broadCount (names ++ [name]) =
    T.broadCount names + if !T.reachableFromOtherEntry name && T.isBroad name then 1 else 0 := by
  rw [broadCount, List.countP_append, List.countP_singleton]
  rfl

variable {s : TieringState}

/-- A round that drops the entry as reachable. -/
theorem LoopSpec.prune (h : LoopSpec T names s) (hprunable : T.prunable name)
    (hreach : T.reachableFromOtherEntry name) :
    LoopSpec T (names ++ [name])
      { s with weakPrunedReachable := s.weakPrunedReachable ++ [name] } where
  broad := by simp [h.broad, hreach]
  kept := h.kept
  roots o := by
    rw [isRoot_concat, h.roots]
    refine (or_iff_left ?_).symm
    rintro ⟨rfl, hnext⟩
    -- A prunable root is not reachable.
    exact hnext.unreached hprunable hreach
  pruned o := by
    rw [List.mem_append, List.mem_singleton, h.pruned, List.mem_append, List.mem_singleton,
      or_and_right]
    refine or_congr_right (iff_self_and.mpr ?_)
    rintro rfl
    exact ⟨hprunable, hreach⟩

/-- A round that leaves the entry out for another reason. -/
theorem LoopSpec.leave (h : LoopSpec T names s) (hnext : ¬RootNext T names name)
    (hpruned : ¬(T.prunable name = true ∧ T.reachableFromOtherEntry name = true))
    (hbroad : s.broadAdded =
      if T.broadMode then min kBroadAddCap (T.broadCount (names ++ [name])) else 0)
    (left : List String) :
    LoopSpec T (names ++ [name]) { s with weakPrunedNoStrongConflict := left } where
  broad := hbroad
  kept := h.kept
  roots o := by
    rw [isRoot_concat, h.roots]
    refine (or_iff_left ?_).symm
    rintro ⟨rfl, h'⟩
    exact hnext h'
  pruned o := by
    rw [h.pruned, List.mem_append, List.mem_singleton, or_and_right]
    refine (or_iff_left ?_).symm
    rintro ⟨rfl, h'⟩
    exact hpruned h'

/-- A round that keeps the entry. -/
theorem LoopSpec.promote (h : LoopSpec T names s) (hnext : RootNext T names name)
    (hpruned : ¬(T.prunable name = true ∧ T.reachableFromOtherEntry name = true)) {added : ℕ}
    (hbroad : added =
      if T.broadMode then min kBroadAddCap (T.broadCount (names ++ [name])) else 0) :
    LoopSpec T (names ++ [name]) (promote { s with broadAdded := added } name) := by
  -- The entry is the only new root, and it is not pruned.
  have hroots : ∀ o, T.IsRoot (names ++ [name]) o ↔ o ∈ s.threadRoots ∨ o = name := by
    intro o
    rw [isRoot_concat, h.roots]
    refine or_congr_right (and_iff_left_of_imp ?_)
    rintro rfl
    exact hnext
  have hpruned' : ∀ o, o ∈ s.weakPrunedReachable ↔
      o ∈ names ++ [name] ∧ T.prunable o = true ∧ T.reachableFromOtherEntry o = true := by
    intro o
    rw [h.pruned, List.mem_append, List.mem_singleton, or_and_right]
    refine (or_iff_left ?_).symm
    rintro ⟨rfl, h'⟩
    exact hpruned h'
  unfold EntryTiering.promote
  dsimp only
  split_ifs with hold
  · -- The entry was kept before.
    refine ⟨hbroad, h.kept, fun o => ?_, hpruned'⟩
    rw [hroots]
    refine (or_iff_left_of_imp ?_).symm
    rintro rfl
    exact (h.kept o).mp hold
  · refine ⟨hbroad, fun o => ?_, fun o => ?_, hpruned'⟩
    · rw [List.mem_cons, h.kept, List.mem_append, List.mem_singleton, or_comm]
    · rw [List.mem_append, List.mem_singleton, hroots]

/-- An entry is never weak and strong at once. -/
theorem prunable_of_not_isWeak (hweak : T.isWeak name = false) :
    T.prunable name = (T.kExpReachStrong && opsOrInitOnlyStrong (T.entrySignalMasks name)) := by
  rw [prunable, hweak, Bool.false_or]

/-- The count of the broad tier after a round that adds nothing to it. -/
theorem broadAdded_unchanged (h : LoopSpec T names s)
    (hno : T.reachableFromOtherEntry name = true ∨ T.isBroad name = false) :
    s.broadAdded =
      if T.broadMode then min kBroadAddCap (T.broadCount (names ++ [name])) else 0 := by
  rw [h.broad, broadCount_concat]
  rcases hno with hno | hno <;> simp [hno]

/-- The round for a weak entry that no other entry reaches and that conflicts with no strong one. -/
theorem LoopSpec.broadTier (h : LoopSpec T names s) (hweak : T.isWeak name = true)
    (hreach : T.reachableFromOtherEntry name = false)
    (hstrong : T.conflictsWithSet name T.strongNames = false) :
    LoopSpec T (names ++ [name])
      (if T.broadMode && s.broadAdded < kBroadAddCap && T.conflictsWithSet name T.entryPoints then
        EntryTiering.promote { s with broadAdded := s.broadAdded + 1 } name
      else { s with weakPrunedNoStrongConflict := s.weakPrunedNoStrongConflict ++ [name] }) := by
  have hpruned : ¬(T.prunable name = true ∧ T.reachableFromOtherEntry name = true) := by
    simp [hreach]
  have hisBroad : T.isBroad name = T.conflictsWithSet name T.entryPoints := by
    simp [isBroad, hweak, hstrong]
  have hcount : T.broadCount (names ++ [name]) =
      T.broadCount names + if T.conflictsWithSet name T.entryPoints then 1 else 0 := by
    rw [broadCount_concat, hreach, hisBroad]
    rfl
  have hadded := h.broad
  split_ifs with htier
  · simp only [Bool.and_eq_true, decide_eq_true_eq] at htier
    obtain ⟨⟨hbroad, hroom⟩, hany⟩ := htier
    rw [if_pos hbroad] at hadded
    -- Below the cap the count is the number of the entries that asked.
    have hlt : T.broadCount names < kBroadAddCap := by omega
    refine h.promote ⟨fun _ => by simp [hreach], fun _ => .inr ⟨hbroad, hany, hlt⟩⟩ hpruned ?_
    rw [if_pos hbroad, hcount, if_pos hany]
    omega
  · refine h.leave ?_ hpruned ?_ _
    · rintro ⟨-, hconflicts⟩
      rcases hconflicts hweak with hs | ⟨hbroad, hany, hlt⟩
      · rw [hstrong] at hs
        cases hs
      · rw [if_pos hbroad] at hadded
        exact htier (by simp [hbroad, hany]; omega)
    · rw [hadded, hcount]
      cases hbroad : T.broadMode with
      | false => rfl
      | true =>
        cases hany : T.conflictsWithSet name T.entryPoints with
        | false => simp
        | true =>
          -- The cap is reached, and stays so.
          rw [hbroad, if_pos rfl] at hadded
          have hfull : ¬s.broadAdded < kBroadAddCap := by simpa [hbroad, hany] using htier
          simp only [if_true]
          omega

/-- One round. -/
theorem LoopSpec.round (h : LoopSpec T names s) (name : String) :
    LoopSpec T (names ++ [name]) (T.round s name) := by
  unfold EntryTiering.round
  cases hweak : T.isWeak name with
  | true =>
    have hprunable : T.prunable name = true := by simp [prunable, hweak]
    cases hreach : T.reachableFromOtherEntry name with
    | true =>
      -- A weak entry that another one reaches is pruned.
      have hclass : (T.weakClass name).reachable = true := hreach
      rw [if_pos rfl, if_pos hclass]
      exact h.prune hprunable hreach
    | false =>
      have hclass : T.weakClass name = ⟨false, T.conflictsWithSet name T.strongNames⟩ := by
        simp [weakClass, hreach]
      rw [if_pos rfl, hclass, if_neg Bool.false_ne_true]
      cases hstrong : T.conflictsWithSet name T.strongNames with
      | true =>
        -- A weak entry that conflicts with a strong one is kept, and is not broad.
        have hpruned : ¬(T.prunable name = true ∧ T.reachableFromOtherEntry name = true) := by
          simp [hreach]
        have hbroad : T.isBroad name = false := by simp [isBroad, hstrong]
        rw [if_pos rfl]
        exact h.promote ⟨fun _ => by simp [hreach], fun _ => .inl hstrong⟩ hpruned
          (broadAdded_unchanged h (.inr hbroad))
      | false =>
        rw [if_neg Bool.false_ne_true]
        exact h.broadTier hweak hreach hstrong
  | false =>
    -- Any other entry is kept unless it is an explicit one that is reached.
    have hprunable := prunable_of_not_isWeak hweak
    have hbroad : T.isBroad name = false := by simp [isBroad, hweak]
    rw [if_neg Bool.false_ne_true]
    split_ifs with hprune
    · obtain ⟨hexp, hreach⟩ := Bool.and_eq_true_iff.mp hprune
      exact h.prune (hprunable.trans hexp) hreach
    · have hpruned : ¬(T.prunable name = true ∧ T.reachableFromOtherEntry name = true) := by
        rw [hprunable]
        simpa using hprune
      refine h.promote ⟨fun hp hr => hpruned ⟨hp, hr⟩, fun hw => ?_⟩ hpruned
        (broadAdded_unchanged h (.inr hbroad))
      rw [hweak] at hw
      cases hw

/-- The loop has done nothing before its first name. -/
theorem loopSpec_nil (T : EntryTiering) : LoopSpec T [] {} where
  broad := by simp [broadCount]
  kept _ := Iff.rfl
  roots o := by
    refine ⟨fun h => absurd h List.not_mem_nil, fun h => absurd h.mem List.not_mem_nil⟩
  pruned o := by simp

/-- The whole loop. -/
theorem loopSpec_tiering (T : EntryTiering) : LoopSpec T T.entryPoints T.tiering := by
  have hrun : ∀ names, LoopSpec T names (names.foldl T.round {}) := by
    intro names
    induction names using List.reverseRecOn with
    | nil => exact loopSpec_nil T
    | append_singleton names name ih =>
      rw [List.foldl_append]
      exact ih.round name
  exact hrun T.entryPoints

/-! ### Coverage -/

/-- The thread roots are the entries that are roots on their own account, if there are any. -/
theorem mem_threadRootEntryPoints (hany : ∃ root, T.IsRoot T.entryPoints root) {o : String} :
    o ∈ T.threadRootEntryPoints ↔ T.IsRoot T.entryPoints o := by
  have hroots := (loopSpec_tiering T).roots
  obtain ⟨root, hroot⟩ := hany
  have hne : ¬T.tiering.threadRoots.isEmpty := by
    rw [List.isEmpty_iff]
    exact List.ne_nil_of_mem ((hroots root).mpr hroot)
  rw [threadRootEntryPoints, if_neg hne, hroots]

/-- Otherwise all entries are thread roots. -/
theorem threadRootEntryPoints_of_none (hnone : ¬∃ root, T.IsRoot T.entryPoints root) :
    T.threadRootEntryPoints = T.entryPoints := by
  have hroots := (loopSpec_tiering T).roots
  have hnil : T.tiering.threadRoots.isEmpty := by
    rw [List.isEmpty_iff, List.eq_nil_iff_forall_not_mem]
    exact fun root hroot => hnone ⟨root, (hroots root).mp hroot⟩
  rw [threadRootEntryPoints, if_pos hnil]

/-- The tiering keeps coverage exactly if every entry that is dropped as reachable is called,
directly or through other functions, by an entry that is a root on its own account. -/
theorem coverage_iff (T : EntryTiering) : T.Coverage ↔ T.RootsReach := by
  have hpruned := (loopSpec_tiering T).pruned
  constructor
  · intro hcoverage name hmem hprunable hreach hany
    obtain ⟨root, hroot, hcalls⟩ := hcoverage name ((hpruned name).mpr ⟨hmem, hprunable, hreach⟩)
    exact ⟨root, (mem_threadRootEntryPoints hany).mp hroot, hcalls⟩
  · intro hreaches name hname
    obtain ⟨hmem, hprunable, hreach⟩ := (hpruned name).mp hname
    by_cases hany : ∃ root, T.IsRoot T.entryPoints root
    · obtain ⟨root, hroot, hcalls⟩ := hreaches name hmem hprunable hreach hany
      exact ⟨root, (mem_threadRootEntryPoints hany).mpr hroot, hcalls⟩
    · rw [threadRootEntryPoints_of_none hany]
      exact ⟨name, hmem, .refl⟩

/-! ### Exported functions that call each other -/

/-- Two exported functions call each other; a system call is the only strong entry. -/
def mutualExports : EntryTiering where
  module := ⟨[
    ⟨"lock_dev", false, [.call "reset_dev"]⟩,
    ⟨"reset_dev", false, [.call "lock_dev"]⟩,
    ⟨"sys_poll", false, []⟩]⟩
  entryPoints := ["lock_dev", "reset_dev", "sys_poll"]
  entrySignalMasks name := if name = "sys_poll" then sigSyscall else sigExportSymbol
  kExpReachStrong := false

/-- Both are dropped for the sake of the other, and the system call does not reach them. -/
theorem mutualExports_uncovered : ¬mutualExports.Coverage := by
  intro hcoverage
  have hdropped : "lock_dev" ∈ mutualExports.tiering.weakPrunedReachable := by decide +kernel
  obtain ⟨root, hroot, hcalls⟩ := hcoverage "lock_dev" hdropped
  have hroots : mutualExports.threadRootEntryPoints = ["sys_poll"] := by decide +kernel
  rw [hroots, List.mem_singleton] at hroot
  subst hroot
  rcases hcalls.cases_head with heq | ⟨callee, hcall, -⟩
  · revert heq
    decide
  · have hnil : mutualExports.module.directCalls "sys_poll" = [] := by decide +kernel
    rw [Module.Calls, hnil] at hcall
    exact List.not_mem_nil hcall

/-! ### Acyclic modules -/

/-- A dropped entry reaches another one by a few calls. -/
def Feeds (T : EntryTiering) (o name : T.entryPoints.toFinset) : Prop :=
  T.module.reachesFunctionWithin o name tierDepth = true

/-- Where the entries do not reach each other in a cycle and none is dropped for the lack of a
conflict, the chains of dropped entries end at thread roots. -/
theorem coverage_of_acyclic
    (hdropped : ∀ o ∈ T.entryPoints, ¬T.IsRoot T.entryPoints o → T.reachableFromOtherEntry o)
    (hacyclic : ∀ o, ¬Relation.TransGen T.Feeds o o) : T.Coverage := by
  rw [coverage_iff]
  intro name hmem _ hreach _
  have hirrefl : Std.Irrefl (Relation.TransGen T.Feeds) := ⟨hacyclic⟩
  have hwf : WellFounded (Relation.TransGen T.Feeds) :=
    Finite.wellFounded_of_trans_of_irrefl _
  -- Induction along the chain of the entries that reach each other.
  have hroot : ∀ o : T.entryPoints.toFinset, T.reachableFromOtherEntry o = true →
      ∃ root, T.IsRoot T.entryPoints root ∧ Relation.ReflTransGen T.module.Calls root o := by
    intro o
    induction o using hwf.induction with
    | h o ih =>
      intro hreach
      obtain ⟨p, hp, hfeeds⟩ := List.any_eq_true.mp (Bool.and_eq_true_iff.mp hreach).2
      have hfeeds := (Bool.and_eq_true_iff.mp hfeeds).2
      have hcalls := Module.calls_of_reachesFunctionWithin hfeeds
      by_cases hroot : T.IsRoot T.entryPoints p
      · exact ⟨p, hroot, hcalls⟩
      · obtain ⟨root, hroot, htrans⟩ := ih ⟨p, List.mem_toFinset.mpr hp⟩ (.single hfeeds)
          (hdropped p hp hroot)
        exact ⟨root, hroot, htrans.trans hcalls⟩
  exact hroot ⟨name, List.mem_toFinset.mpr hmem⟩ hreach

end EntryTiering

end Lace
