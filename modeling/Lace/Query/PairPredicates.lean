import Lace.Query.Verifier
import Lace.Surface.SharedFieldKey

/-!
# Predicates on two accesses

The evaluators of `HypothesisVerifier` for two nodes: `eval_same_location` and `eval_conflicts`,
besides `eval_concurrent` and `eval_same_lock`. Two nodes access one location if their accesses have
a common field, alias, or lie in one global variable, or if the surface has put them on one list. In
the last case `eval_conflicts` asks the surface for the write; it recognizes the case by a mark in
the explanation of `eval_same_location`, which also names the common field or global.

## Main definitions

* `MemoryVerifier`: what these evaluators read;
* `MemoryVerifier.locationDetail`, `MemoryVerifier.evalConflicts`: the functions of the source;
* `MemoryVerifier.PairSymmetric`: no evaluator asks which node is named first;
* `MemoryVerifier.sharedName`: the name in the explanation.

## Main results

* `MemoryVerifier.evalSameLocation_comm`: one location is one location from either side;
* `MemoryVerifier.pairSymmetric_iff`: when all evaluators are symmetric.
-/

namespace Lace

open Library

/-- `OpKind`: what an instruction does to memory. -/
inductive OpKind
  | read | write | rmw | call | other
  deriving DecidableEq, Repr

/-- The `llvm::Instruction` classes that `classifyInstruction` tells apart. -/
inductive InstructionClass
  | atomicRmw | atomicCmpXchg | store | load | call | invoke | other
  deriving DecidableEq, Repr

/-- `classifyInstruction`: what an instruction of a class does to memory. -/
def classifyInstruction : InstructionClass → OpKind
  | .atomicRmw | .atomicCmpXchg => .rmw
  | .store => .write
  | .load => .read
  | .call | .invoke => .call
  | .other => .other

/-- `MemoryAccess`: the fields that are read here. -/
structure MemoryAccess where
  /-- `pointerOperand`. -/
  pointerOperand : ValueId
  /-- `isWrite`. -/
  isWrite : Bool
  /-- The class of `instruction`. -/
  instruction : InstructionClass
  deriving DecidableEq, Repr

/-- `SharedFieldKey::toString`. -/
def SharedFieldKey.toString (k : SharedFieldKey) : String :=
  (match k.kind with
    | .global => "global:"
    | .structField => "field:"
    | .unknown => "obj:") ++
  k.typeName ++ if 0 < k.fieldOffset then "+" ++ Int.repr k.fieldOffset else ""

/-- `SharedObject`, with the fields that the predicates on lists read. -/
structure ListObject extends SharedObject where
  /-- `name`. -/
  name : String
  /-- `has_list_mutation`. -/
  hasListMutation : Bool
  deriving DecidableEq, Repr

/-- `s.find(pat) != std::string::npos`. -/
def contains (s pat : String) : Bool := (findStr s pat).isSome

/-- `kWriteHints`: signs in a function's name that it changes its argument. -/
def kWriteHints : List String :=
  ["_del", "_set", "_clear", "_add", "_insert", "_remove", "_destroy", "_unregister", "_release",
    "_init", "_reset", "_assign", "_store", "_write", "_put"]

/-- `inferIsWrite`: the name of the callee says that it writes. -/
def inferIsWrite (CI : CallInst) : Bool :=
  match CI.calledFunction with
  | none => false
  | some name =>
    name = "kfree" || name = "kvfree" || name = "kmem_cache_free" ||
      "kfree_".toList.isPrefixOf name.toList || "_free".toList.isSuffixOf name.toList ||
      contains name "kfree_rcu" || kWriteHints.any (contains name)

/-- `isListHelperSnippet`: the code walks over a list, or changes it by a helper. -/
def isListHelperSnippet (code : String) : Bool :=
  contains code "[list-helper]" || contains code "list_for_each_entry" ||
    contains code "hlist_for_each_entry"

/-- The words of `isListMutatorSnippet`. -/
def listMutators : List String :=
  ["list_del", "list_add", "list_move", "list_splice", "list_replace", "list_swap", "list_cut_",
    "hlist_del", "hlist_add", "hlist_move", "hlist_splice", "hlist_replace"]

/-- `isListMutatorSnippet`: the code changes a list by a helper. -/
def isListMutatorSnippet (code : String) : Bool :=
  contains code "[list-helper]" && listMutators.any (contains code)

/-- What the predicates on two accesses read. -/
structure MemoryVerifier where
  /-- The evaluators that read no accesses. -/
  verifier : HypothesisVerifier
  /-- `surface_`, with the names of the objects. -/
  surface : Option (List ListObject)
  /-- It is the surface of the other evaluators. -/
  surface_eq : verifier.surface = surface.map (List.map ListObject.toSharedObject)
  /-- `getMemoryAccessesFromLocation` at the location of a node, in a context. -/
  memoryAccesses : NodeId → Context → List MemoryAccess
  /-- The type of a value is a pointer type. -/
  isPointer : ValueId → Bool
  /-- `getLLVMModule` finds the module. -/
  hasModule : Bool
  /-- The GEPs and casts of a pointer. -/
  steps : ValueId → List ChainStep
  /-- Its users. -/
  users : ValueId → List (Option StructType)
  /-- `llvm::getUnderlyingObject`. -/
  underlyingObject : ValueId → ValueId
  /-- What such an object is. -/
  object : ValueId → UnderlyingObject

namespace MemoryVerifier

variable (V : MemoryVerifier)

/-- A pointer as `SharedFieldKey::fromValue` sees it. -/
def pointerValue (v : ValueId) : PointerValue where
  steps := V.steps v
  root := V.object (V.underlyingObject v)
  users := V.users v

/-- The accesses that are made up for a call site: its pointer arguments. -/
def callAccesses (n : NodeId) : List MemoryAccess :=
  match V.verifier.ir.callInst n with
  | none => []
  | some CI =>
    if V.verifier.ccpg.isCallSite n then
      (CI.args.filter V.isPointer).map fun arg => ⟨arg, inferIsWrite CI, .call⟩
    else []

/-- `gatherAccesses`: the accesses in all contexts, or else those of a call site. -/
def gatherAccesses (n : NodeId) : List MemoryAccess :=
  let ctxs := V.verifier.contextSet n
  let out :=
    if ctxs.isEmpty then V.memoryAccesses n [] else ctxs.flatMap (V.memoryAccesses n)
  if out.isEmpty then V.callAccesses n else out

/-- `AliasChecker::isAlias`: what the pointer analysis says about two values. -/
def isAlias (v w : ValueId) : Bool := V.verifier.ir.areAliases v w

/-- The keys of the accesses at a node, where they have one. -/
def keys (n : NodeId) : List SharedFieldKey :=
  if V.hasModule then
    (V.gatherAccesses n).filterMap fun a =>
      SharedFieldKey.fromValue (V.pointerValue a.pointerOperand) false
  else []

/-- The first key at one node that is also one at the other. -/
def sharedKey (n1 n2 : NodeId) : Option SharedFieldKey :=
  (V.keys n1).find? fun k => k ∈ V.keys n2

/-- Two accesses of the nodes alias. -/
def anyAlias (n1 n2 : NodeId) : Bool :=
  (V.gatherAccesses n1).any fun a1 => (V.gatherAccesses n2).any fun a2 =>
    V.isAlias a1.pointerOperand a2.pointerOperand

/-- The underlying object is an `llvm::GlobalVariable`. -/
def isGlobal (r : ValueId) : Bool :=
  match V.object r with
  | .global _ => true
  | _ => false

/-- `getName` of a global, where it has one. -/
def globalName (r : ValueId) : String :=
  match V.object r with
  | .global (some name) => name
  | _ => "<anon>"

/-- The underlying objects of the accesses at a node. -/
def underlyingObjects (n : NodeId) : List ValueId :=
  (V.gatherAccesses n).map fun a => V.underlyingObject a.pointerOperand

/-- The first global at one node that is also at the other. -/
def sharedGlobal (n1 n2 : NodeId) : Option ValueId :=
  (V.underlyingObjects n1).find? fun r => V.isGlobal r && r ∈ V.underlyingObjects n2

/-- `n1_snippet` and `n2_snippet`: the text of the last access of an object at a node. -/
def lastSnippet (obj : ListObject) (n : NodeId) : Option String :=
  (obj.accesses.filter fun a => a.nodeId = n).getLast?.map ThreadAccess.codeSnippet

/-- The object has list helpers, and accesses at both nodes. -/
def coLocates (n1 n2 : NodeId) (obj : ListObject) : Bool :=
  obj.hasListMutation &&
    match lastSnippet obj n1, lastSnippet obj n2 with
    | some s1, some s2 => isListHelperSnippet s1 || isListHelperSnippet s2
    | _, _ => false

/-- The object of the surface that has both nodes on one list. -/
def coLocated (n1 n2 : NodeId) : Option ListObject :=
  V.surface.bind fun objects => objects.find? (coLocates n1 n2)

/-- The explanation for two nodes on one list. -/
def coLocatedDetail (obj : ListObject) : String :=
  "surface-co-located list-helper accesses on '" ++ obj.name ++
    "' (has_list_mutation=true; static aliasing across list_del entry-ptr vs " ++
    "list_for_each_entry head-load is undecidable, relaxed via v23 Fix #3b)"

/-- The explanation of `eval_same_location` where it succeeds: for a common field, an alias, a
common global or a common list, whichever is found first. -/
def locationDetail (n1 n2 : NodeId) : Option String :=
  if (V.verifier.ccpg.getNodeByID n1).isNone || (V.verifier.ccpg.getNodeByID n2).isNone then none
  else if (V.gatherAccesses n1).isEmpty || (V.gatherAccesses n2).isEmpty then none
  else
    ((V.sharedKey n1 n2).map fun k => "same field: " ++ k.toString) <|>
      (if V.anyAlias n1 n2 then some "phasar-alias (field-level disagrees or unavailable)"
        else none) <|>
      ((V.sharedGlobal n1 n2).map fun r => "same underlying global: " ++ V.globalName r) <|>
      (V.coLocated n1 n2).map coLocatedDetail

/-- `eval_same_location`: the predicate on two nodes that touch one place in memory. -/
def evalSameLocation (n1 n2 : NodeId) : Bool := (V.locationDetail n1 n2).isSome

/-- `hasWriteOrRMW` of the accesses at a node. -/
def hasWriteOrRMW (n : NodeId) : Bool :=
  (V.gatherAccesses n).any fun a =>
    classifyInstruction a.instruction = .write || classifyInstruction a.instruction = .rmw ||
      a.isWrite

/-- `surfaceWrite1 || surfaceWrite2`: the surface has a list helper that writes at one of the nodes.
-/
def surfaceWrites (n1 n2 : NodeId) : Bool :=
  V.surface.any fun objects => objects.any fun obj =>
    obj.hasListMutation && obj.accesses.any fun a =>
      (a.nodeId = n1 || a.nodeId = n2) && a.accessType = .write &&
        isListMutatorSnippet a.codeSnippet

/-- `eval_conflicts`: the predicate on two nodes of which one writes what the other touches. -/
def evalConflicts (n1 n2 : NodeId) : Bool :=
  match V.locationDetail n1 n2 with
  | none => false
  | some locDetail =>
    V.hasWriteOrRMW n1 || V.hasWriteOrRMW n2 ||
      -- The text of the explanation tells that the nodes were found on a common list.
      contains locDetail "Fix #3b" && V.surfaceWrites n1 n2

/-! ### Symmetry -/

/-- All four evaluators give the same answer in either order. -/
structure PairSymmetric (n1 n2 : NodeId) : Prop where
  /-- `eval_concurrent` does. -/
  concurrent : V.verifier.evalConcurrent n1 n2 = V.verifier.evalConcurrent n2 n1
  /-- `eval_conflicts` does. -/
  conflicts : V.evalConflicts n1 n2 = V.evalConflicts n2 n1
  /-- `eval_same_location` does. -/
  sameLocation : V.evalSameLocation n1 n2 = V.evalSameLocation n2 n1
  /-- `eval_same_lock` does. -/
  sameLock : V.verifier.evalSameLock n1 n2 = V.verifier.evalSameLock n2 n1

/-- The alias relation is symmetric. -/
def SymmetricAliases : Prop :=
  ∀ v w, V.verifier.ir.areAliases v w = V.verifier.ir.areAliases w v

/-- The name that the explanation gives: the first field at `n1` that is also accessed at `n2`, or,
where nothing aliases, the first global. -/
def sharedName (n1 n2 : NodeId) : Option String :=
  if (V.verifier.ccpg.getNodeByID n1).isNone || (V.verifier.ccpg.getNodeByID n2).isNone then none
  else
    ((V.sharedKey n1 n2).map SharedFieldKey.toString) <|>
      if V.anyAlias n1 n2 then none else (V.sharedGlobal n1 n2).map V.globalName

/-- A node is written to, no list helper on the surface writes, or the names in the explanations for
the two orders both have the mark or both lack it. -/
def MarkAgrees (n1 n2 : NodeId) : Prop :=
  V.hasWriteOrRMW n1 = true ∨ V.hasWriteOrRMW n2 = true ∨ V.surfaceWrites n1 n2 = false ∨
    ∀ s1 ∈ V.sharedName n1 n2, ∀ s2 ∈ V.sharedName n2 n1,
      contains s1 "Fix #3b" = contains s2 "Fix #3b"

end MemoryVerifier

/-! ### The mark in a text -/

/-- A text has a pattern exactly if the pattern is a part of it. -/
theorem contains_iff {s pat : String} : contains s pat = true ↔ pat.toList <:+: s.toList := by
  rw [contains, findStr, List.findIdx?_isSome, List.any_eq_true, List.infix_iff_prefix_suffix]
  refine exists_congr fun t => ?_
  rw [List.mem_tails, List.isPrefixOf_iff_prefix, and_comm]

theorem infix_append_iff_of_not_mem {α : Type*} {c : α} {cs a b : List α} (hc : c ∉ a) :
    c :: cs <:+: a ++ b ↔ c :: cs <:+: b := by
  induction a with
  | nil => rfl
  | cons x a ih =>
    -- A match at `x` would start with `c`.
    rw [List.mem_cons, not_or] at hc
    rw [List.cons_append, List.infix_cons_iff, ih hc.2, or_iff_right]
    intro hpre
    exact hc.1 (List.cons_prefix_cons.mp hpre).1

/-- A text in front without an `F` has no part in the mark. -/
theorem contains_mark_append {pre s : String} (hpre : 'F' ∉ pre.toList) :
    contains (pre ++ s) "Fix #3b" = contains s "Fix #3b" := by
  have hmark : "Fix #3b".toList = 'F' :: "ix #3b".toList := rfl
  rw [Bool.eq_iff_iff, contains_iff, contains_iff, String.toList_append, hmark,
    infix_append_iff_of_not_mem hpre]

/-- What stands in the end of a text stands in the text. -/
theorem contains_append_right {s t pat : String} (h : contains t pat = true) :
    contains (s ++ t) pat = true := by
  rw [contains_iff] at h ⊢
  rw [String.toList_append]
  exact h.trans (List.suffix_append _ _).isInfix

/-- The detail for aliases has no mark. -/
theorem alias_no_mark : contains "phasar-alias (field-level disagrees or unavailable)" "Fix #3b" =
    false := by decide +kernel

/-- The detail for a shared list has the mark. -/
theorem contains_mark_coLocatedDetail (obj : ListObject) :
    contains (MemoryVerifier.coLocatedDetail obj) "Fix #3b" = true :=
  contains_append_right (by decide +kernel)

namespace MemoryVerifier

variable {V : MemoryVerifier} {n1 n2 : NodeId}

/-! ### One location -/

/-- Sharing a field is symmetric. -/
theorem isSome_sharedKey_comm (n1 n2 : NodeId) :
    (V.sharedKey n1 n2).isSome = (V.sharedKey n2 n1).isSome := by
  rw [Bool.eq_iff_iff, sharedKey, sharedKey, List.find?_isSome, List.find?_isSome]
  simp only [decide_eq_true_eq]
  exact exists_congr fun k => and_comm

/-- Sharing a global is symmetric. -/
theorem isSome_sharedGlobal_comm (n1 n2 : NodeId) :
    (V.sharedGlobal n1 n2).isSome = (V.sharedGlobal n2 n1).isSome := by
  rw [Bool.eq_iff_iff, sharedGlobal, sharedGlobal, List.find?_isSome, List.find?_isSome]
  simp only [Bool.and_eq_true, decide_eq_true_eq]
  refine exists_congr fun r => ?_
  tauto

/-- Aliasing of two nodes is symmetric if aliasing of values is. -/
theorem anyAlias_comm (hsymm : V.SymmetricAliases) (n1 n2 : NodeId) :
    V.anyAlias n1 n2 = V.anyAlias n2 n1 := by
  rw [Bool.eq_iff_iff, anyAlias, anyAlias]
  simp only [List.any_eq_true, isAlias]
  constructor
  · rintro ⟨a1, h1, a2, h2, halias⟩
    exact ⟨a2, h2, a1, h1, by rwa [hsymm]⟩
  · rintro ⟨a2, h2, a1, h1, halias⟩
    exact ⟨a1, h1, a2, h2, by rwa [hsymm]⟩

/-- Being on one object of the surface is symmetric. -/
theorem coLocated_comm (n1 n2 : NodeId) : V.coLocated n1 n2 = V.coLocated n2 n1 := by
  have hcongr : coLocates n1 n2 = coLocates n2 n1 := by
    funext obj
    rw [coLocates, coLocates]
    cases lastSnippet obj n1 <;> cases lastSnippet obj n2 <;> simp [Bool.or_comm]
  rw [coLocated, coLocated, hcongr]

/-- A write of either node is symmetric. -/
theorem surfaceWrites_comm (n1 n2 : NodeId) : V.surfaceWrites n1 n2 = V.surfaceWrites n2 n1 := by
  simp only [surfaceWrites, Bool.or_comm]

/-- Two nodes that access one location do so from either side. -/
theorem evalSameLocation_comm (hsymm : V.SymmetricAliases) (n1 n2 : NodeId) :
    V.evalSameLocation n1 n2 = V.evalSameLocation n2 n1 := by
  rw [evalSameLocation, evalSameLocation, locationDetail, locationDetail, Bool.or_comm,
    Bool.or_comm (V.gatherAccesses n1).isEmpty, anyAlias_comm hsymm n2 n1, coLocated_comm n2 n1]
  split_ifs with hfound hempty
  · rfl
  · rfl
  · simp only [Option.orElse_eq_orElse, Option.orElse_eq_or, Option.isSome_or, Option.isSome_map,
      isSome_sharedKey_comm n1 n2, isSome_sharedGlobal_comm n1 n2]
  · simp only [Option.orElse_eq_orElse, Option.orElse_eq_or, Option.isSome_or, Option.isSome_map,
      isSome_sharedKey_comm n1 n2, isSome_sharedGlobal_comm n1 n2]

/-! ### One lock -/

/-- Sharing a lock is symmetric. -/
theorem shareLock_comm (hsymm : V.SymmetricAliases) (n1 n2 : NodeId) :
    V.verifier.shareLock n1 n2 = V.verifier.shareLock n2 n1 := by
  have halias : ∀ a b, V.verifier.ir.isLockAlias a b = V.verifier.ir.isLockAlias b a := by
    intro a b
    rw [IRModule.isLockAlias, IRModule.isLockAlias]
    cases V.verifier.ir.firstArg a <;> cases V.verifier.ir.firstArg b <;> simp [hsymm _ _]
  rw [Bool.eq_iff_iff, HypothesisVerifier.shareLock, HypothesisVerifier.shareLock]
  simp only [List.any_eq_true]
  constructor
  · rintro ⟨ls1, h1, ls2, h2, l1, hl1, l2, hl2, hlock⟩
    exact ⟨ls2, h2, ls1, h1, l2, hl2, l1, hl1, by rwa [halias]⟩
  · rintro ⟨ls2, h2, ls1, h1, l2, hl2, l1, hl1, hlock⟩
    exact ⟨ls1, h1, ls2, h2, l1, hl1, l2, hl2, by rwa [halias]⟩

/-- So is sharing the annotation of a lock. -/
theorem surfaceSameLock_comm (n1 n2 : NodeId) :
    V.verifier.surfaceSameLock n1 n2 = V.verifier.surfaceSameLock n2 n1 := by
  rw [HypothesisVerifier.surfaceSameLock, HypothesisVerifier.surfaceSameLock]
  refine congrArg (V.verifier.surface.any ·) (funext fun objects => ?_)
  cases HypothesisVerifier.surfaceLock objects n1 <;>
    cases HypothesisVerifier.surfaceLock objects n2 <;> simp [eq_comm]

/-- So the predicate on locks is symmetric. -/
theorem evalSameLock_comm (hsymm : V.SymmetricAliases) (n1 n2 : NodeId) :
    V.verifier.evalSameLock n1 n2 = V.verifier.evalSameLock n2 n1 := by
  rw [HypothesisVerifier.evalSameLock, HypothesisVerifier.evalSameLock]
  cases V.verifier.ccpg.getNodeByID n1 with
  | none => cases V.verifier.ccpg.getNodeByID n2 <;> rfl
  | some a =>
    cases V.verifier.ccpg.getNodeByID n2 with
    | none => rfl
    | some b =>
      show (V.verifier.shareLock a b || _) = (V.verifier.shareLock b a || _)
      rw [shareLock_comm hsymm a b, surfaceSameLock_comm n1 n2]

/-- The predicate on concurrency is symmetric. -/
theorem evalConcurrent_comm (hsymm : V.SymmetricAliases) (n1 n2 : NodeId) :
    V.verifier.evalConcurrent n1 n2 = V.verifier.evalConcurrent n2 n1 := by
  rw [HypothesisVerifier.evalConcurrent, HypothesisVerifier.evalConcurrent]
  cases V.verifier.ccpg.getNodeByID n1 with
  | none => cases V.verifier.ccpg.getNodeByID n2 <;> rfl
  | some a =>
    cases V.verifier.ccpg.getNodeByID n2 with
    | none => rfl
    | some b =>
      simp only [evalSameLock_comm hsymm n1 n2,
        Bool.or_comm (V.verifier.ordered a b V.verifier.hbRequireSyncEnabled)]

/-! ### Conflicts -/

/-- A node without accesses has no fields. -/
theorem sharedKey_eq_none (h : (V.gatherAccesses n1).isEmpty || (V.gatherAccesses n2).isEmpty) :
    V.sharedKey n1 n2 = none := by
  refine List.find?_eq_none.mpr fun k hk1 hk2 => ?_
  have hne : ∀ n, k ∈ V.keys n → (V.gatherAccesses n).isEmpty = false := by
    intro n hk
    rw [keys] at hk
    split_ifs at hk
    · obtain ⟨a, ha, -⟩ := List.mem_filterMap.mp hk
      exact List.isEmpty_eq_false_iff_exists_mem.mpr ⟨a, ha⟩
    · exact absurd hk List.not_mem_nil
  rw [hne n1 hk1, hne n2 (by simpa using hk2)] at h
  exact Bool.noConfusion h

/-- It has no globals either. -/
theorem sharedGlobal_eq_none (h : (V.gatherAccesses n1).isEmpty || (V.gatherAccesses n2).isEmpty) :
    V.sharedGlobal n1 n2 = none := by
  refine List.find?_eq_none.mpr fun r hr1 hr2 => ?_
  have hne : ∀ n, r ∈ V.underlyingObjects n → (V.gatherAccesses n).isEmpty = false := by
    intro n hr
    obtain ⟨a, ha, -⟩ := List.mem_map.mp hr
    exact List.isEmpty_eq_false_iff_exists_mem.mpr ⟨a, ha⟩
  rw [hne n1 hr1, hne n2 (by simpa using (Bool.and_eq_true_iff.mp hr2).2)] at h
  exact Bool.noConfusion h

/-- Where the explanation gives a name, it has the mark if the name has it; where it gives none, if
nothing aliases. -/
theorem contains_locationDetail {d : String} (hd : V.locationDetail n1 n2 = some d) :
    contains d "Fix #3b" = match V.sharedName n1 n2 with
      | some s => contains s "Fix #3b"
      | none => !V.anyAlias n1 n2 := by
  rw [locationDetail] at hd
  rw [sharedName]
  split_ifs at hd ⊢ with hfound halias
  · -- Something aliases: a field is named, or nothing is.
    cases hkey : V.sharedKey n1 n2 with
    | some k =>
      rw [hkey] at hd
      obtain rfl : "same field: " ++ k.toString = d := Option.some.inj hd
      exact contains_mark_append (by decide)
    | none =>
      rw [hkey] at hd
      obtain rfl : "phasar-alias (field-level disagrees or unavailable)" = d := Option.some.inj hd
      rw [halias]
      exact alias_no_mark
  · -- Nothing aliases: a field or a global is named, or else the list is.
    cases hkey : V.sharedKey n1 n2 with
    | some k =>
      rw [hkey] at hd
      obtain rfl : "same field: " ++ k.toString = d := Option.some.inj hd
      exact contains_mark_append (by decide)
    | none =>
      cases hglobal : V.sharedGlobal n1 n2 with
      | some r =>
        rw [hkey, hglobal] at hd
        obtain rfl : "same underlying global: " ++ V.globalName r = d := Option.some.inj hd
        exact contains_mark_append (by decide)
      | none =>
        rw [hkey, hglobal] at hd
        obtain ⟨obj, -, rfl⟩ := Option.map_eq_some_iff.mp hd
        simpa [halias] using contains_mark_coLocatedDetail obj

/-- Sharing a name is symmetric. -/
theorem isSome_sharedName_comm (hsymm : V.SymmetricAliases) (n1 n2 : NodeId) :
    (V.sharedName n1 n2).isSome = (V.sharedName n2 n1).isSome := by
  rw [sharedName, sharedName, Bool.or_comm, anyAlias_comm hsymm n2 n1]
  split_ifs with hfound halias
  · rfl
  · simp only [Option.orElse_eq_orElse, Option.orElse_eq_or, Option.isSome_or, Option.isSome_map,
      isSome_sharedKey_comm n1 n2]
  · simp only [Option.orElse_eq_orElse, Option.orElse_eq_or, Option.isSome_or, Option.isSome_map,
      isSome_sharedKey_comm n1 n2, isSome_sharedGlobal_comm n1 n2]

/-- A shared name is one location. -/
theorem evalSameLocation_of_sharedName (h : (V.sharedName n1 n2).isSome = true) :
    V.evalSameLocation n1 n2 = true := by
  rw [sharedName] at h
  rw [evalSameLocation, locationDetail]
  by_cases hempty : (V.gatherAccesses n1).isEmpty || (V.gatherAccesses n2).isEmpty
  · -- Without accesses there is no name.
    rw [sharedKey_eq_none hempty, sharedGlobal_eq_none hempty] at h
    split_ifs at h <;> exact Bool.noConfusion h
  · rw [if_neg hempty]
    split_ifs at h ⊢ with hfound halias
    · exact Bool.noConfusion h
    · cases V.sharedKey n1 n2 <;> rfl
    · cases hkey : V.sharedKey n1 n2 with
      | some k => rfl
      | none =>
        cases hglobal : V.sharedGlobal n1 n2 with
        | some r => rfl
        | none => simp [hkey, hglobal] at h

/-- The conflict of two nodes that access one location. -/
theorem evalConflicts_eq (h : V.evalSameLocation n1 n2 = true) : V.evalConflicts n1 n2 =
    (V.hasWriteOrRMW n1 || V.hasWriteOrRMW n2 ||
      (match V.sharedName n1 n2 with
        | some s => contains s "Fix #3b"
        | none => !V.anyAlias n1 n2) && V.surfaceWrites n1 n2) := by
  obtain ⟨d, hd⟩ := Option.isSome_iff_exists.mp h
  rw [← contains_locationDetail hd, evalConflicts, hd]

/-- Conflicts are symmetric exactly if the mark agrees. -/
theorem evalConflicts_comm_iff (hsymm : V.SymmetricAliases) :
    V.evalConflicts n1 n2 = V.evalConflicts n2 n1 ↔ V.MarkAgrees n1 n2 := by
  have hname := isSome_sharedName_comm hsymm n1 n2
  rw [MarkAgrees]
  cases hsame : V.evalSameLocation n1 n2 with
  | false =>
    -- There is no conflict in either order, and no name that could have the mark.
    have hsame' := (evalSameLocation_comm hsymm n1 n2).symm.trans hsame
    have hnone : V.sharedName n1 n2 = none := by
      by_contra hne
      rw [evalSameLocation_of_sharedName (Option.isSome_iff_ne_none.mpr hne)] at hsame
      exact Bool.noConfusion hsame
    have hd : V.locationDetail n1 n2 = none := by simpa [evalSameLocation] using hsame
    have hd' : V.locationDetail n2 n1 = none := by simpa [evalSameLocation] using hsame'
    simp [evalConflicts, hd, hd', hnone]
  | true =>
    have hsame' := (evalSameLocation_comm hsymm n1 n2).symm.trans hsame
    rw [evalConflicts_eq hsame, evalConflicts_eq hsame', surfaceWrites_comm n2 n1,
      anyAlias_comm hsymm n2 n1, Bool.or_comm (V.hasWriteOrRMW n2)]
    -- The mark counts only where no node is written to and the surface has a list helper.
    cases V.hasWriteOrRMW n1 <;> cases V.hasWriteOrRMW n2 <;> cases V.surfaceWrites n1 n2 <;>
      simp only [Bool.true_or, Bool.false_or, Bool.or_true, Bool.and_true, Bool.and_false,
        Bool.false_eq_true, true_or, or_true, false_or]
    cases h12 : V.sharedName n1 n2 with
    | none =>
      rw [h12] at hname
      have h21 : V.sharedName n2 n1 = none := by simpa using hname.symm
      simp [h21]
    | some s1 =>
      rw [h12] at hname
      obtain ⟨s2, h21⟩ := Option.isSome_iff_exists.mp hname.symm
      simp [h21]

/-- For symmetric aliases, no evaluator asks which of two nodes is named first exactly if a node is
written to, the surface has no list helper that writes at one of them, or the names of the first
field or global that each of them shares with the other both have the mark or both lack it. -/
theorem pairSymmetric_iff (V : MemoryVerifier) (hsymm : V.SymmetricAliases) (n1 n2 : NodeId) :
    V.PairSymmetric n1 n2 ↔ V.MarkAgrees n1 n2 := by
  rw [← evalConflicts_comm_iff hsymm]
  constructor
  · exact fun h => h.conflicts
  · exact fun h =>
      { concurrent := evalConcurrent_comm hsymm n1 n2
        conflicts := h
        sameLocation := evalSameLocation_comm hsymm n1 n2
        sameLock := evalSameLock_comm hsymm n1 n2 }

/-! ### Two calls of `list_move` -/

/-- Two call sites in two threads. -/
def twoCallSites : ThreadCreationTree where
  ccpg := .ofNodes [1, 2] (fun _ => .otherCall) fun _ => true
  threads := [0, 1]
  thread t :=
    { parent := none
      forkNode := if t = 0 then 1 else 2
      joinNode := none
      nodes := if t = 0 then [1] else [2]
      isKernelEntry := true
      isReentrant := false
      entryName := if t = 0 then "drv_ioctl" else "drv_irq" }
  parent_lt := nofun
  forkNode_inj _ _ h := absurd rfl h
  isKernelEntry_of_ne _ _ _ _ _ := rfl

/-- `list_move(&a, &b)` at node 1 and `list_move(&b, &a)` at node 2, where `a` has the given name.
The surface has both on one list. -/
def twoListMoves (name : String) : MemoryVerifier where
  verifier :=
    { tct := twoCallSites
      filters := ⟨none, none⟩
      hb := some ⟨[]⟩
      surface := some
        [{ accesses :=
            [⟨1, .write, 1, "[list-helper] list_move(&a, &b)", false, ""⟩,
              ⟨2, .write, 2, "[list-helper] list_move(&b, &a)", false, ""⟩]
           isSelfRace := false
           accessingThreadIds := ⟨[1, 2], TidSet.sorted_one_two⟩ }]
      ir :=
        { callInst := fun n => some ⟨some "list_move", if n = 1 then [10, 11] else [11, 10]⟩
          cpgNodeName := fun _ => none
          areAliases := fun v w => v = w
          stripPointerCasts := id
          kind := fun _ => .globalVariable none }
      lockAddr := id
      lockAcquire := fun _ => 0
      nodeLockSets := fun _ => []
      contextSet := fun _ => []
      env := ⟨none, none, false⟩
      hbRequireSyncEnabled := true
      evalMemory := fun _ _ => false }
  surface := some
    [{ accesses :=
        [⟨1, .write, 1, "[list-helper] list_move(&a, &b)", false, ""⟩,
          ⟨2, .write, 2, "[list-helper] list_move(&b, &a)", false, ""⟩]
       isSelfRace := false
       accessingThreadIds := ⟨[1, 2], TidSet.sorted_one_two⟩
       name := "global:b"
       hasListMutation := true }]
  surface_eq := rfl
  memoryAccesses _ _ := []
  isPointer _ := true
  hasModule := true
  steps _ := []
  users _ := []
  underlyingObject := id
  object r := if r = 10 then .global (some name) else .global (some "b")

/-- The example has symmetric aliases. -/
theorem symmetricAliases_twoListMoves (name : String) : (twoListMoves name).SymmetricAliases := by
  intro v w
  simp [twoListMoves, eq_comm]

/-- With an ordinary name the answers are symmetric. -/
theorem twoListMoves_pairSymmetric : (twoListMoves "a").PairSymmetric 1 2 :=
  (pairSymmetric_iff (twoListMoves "a") (symmetricAliases_twoListMoves "a") 1 2).mpr
    (Or.inr (Or.inr (Or.inr (by decide +kernel))))

/-- A global with the mark in its name makes a conflict in one order only. -/
theorem twoListMoves_not_pairSymmetric :
    (twoListMoves "Fix #3b").SymmetricAliases ∧
      (twoListMoves "Fix #3b").evalConflicts 1 2 = true ∧
        (twoListMoves "Fix #3b").evalConflicts 2 1 = false ∧
          ¬(twoListMoves "Fix #3b").PairSymmetric 1 2 := by
  have h12 : (twoListMoves "Fix #3b").evalConflicts 1 2 = true := by decide +kernel
  have h21 : (twoListMoves "Fix #3b").evalConflicts 2 1 = false := by decide +kernel
  refine ⟨symmetricAliases_twoListMoves _, h12, h21, fun h => ?_⟩
  have heq := h.conflicts
  rw [h12, h21] at heq
  exact Bool.noConfusion heq

end MemoryVerifier

end Lace
