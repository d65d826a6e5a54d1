import Mathlib.Algebra.BigOperators.Group.List.Basic
import Mathlib.Algebra.Ring.Int.Defs
import Mathlib.Data.Int.Notation
import Mathlib.Data.List.DropRight
import Mathlib.Data.List.Induction
import Mathlib.Data.Option.Basic
import Mathlib.Tactic.ByContra

/-!
# The keys of shared fields

`SharedFieldKey`: the key under which accesses to one field are gathered. The address of an access
is a chain of GEPs and casts over an underlying object. `fromValue` names the outermost struct of
the chain that is no generic container, and adds up the offsets of all GEPs; `fromValueAllAliases`
adds for each inner struct the offset up to its GEP.

An offset is an integer here; what the source reads of a value outside its chain (its underlying
object, and the GEPs among the users of the pointer) is stored beside the chain.

## Main definitions

* `PointerValue`: an address, as a chain over an underlying object;
* `SharedFieldKey.fromValue`, `SharedFieldKey.fromValueAllAliases`: the functions of the source;
* `inside`, `outside`: the chain up to the GEP that gives the type name, and the rest.

## Main results

* `canonicalStruct_eq`: the named struct is the source type of the last GEP inside;
* `fieldOffset_iff`: the offset is the one inside the named struct exactly if the offsets outside
  cancel.
-/

namespace Lace

/-- `llvm::StructType`: its name, if it has one, and its address as it is printed. -/
structure StructType where
  /-- `getName`. -/
  name : Option String
  /-- The address of the type. -/
  address : String
  deriving DecidableEq, Repr

/-- `structTypeName`. -/
def structTypeName (st : StructType) : String :=
  st.name.getD ("anon.struct@" ++ st.address)

/-- The names that `isGenericContainerType` knows. -/
def genericContainers : List String :=
  ["struct.list_head", "struct.hlist_head", "struct.hlist_node", "struct.hlist_bl_head",
    "struct.hlist_bl_node", "struct.hlist_nulls_head", "struct.hlist_nulls_node",
    "struct.llist_head", "struct.llist_node", "struct.rb_root", "struct.rb_root_cached",
    "struct.rb_node", "struct.rhash_head", "struct.rhashtable", "struct.rhlist_head",
    "struct.callback_head", "struct.atomic_t", "struct.atomic64_t", "struct.atomic_long_t",
    "struct.refcount_struct", "struct.kref", "struct.raw_spinlock", "struct.spinlock",
    "struct.raw_spinlock_t", "struct.spinlock_t", "struct.mutex", "struct.rw_semaphore",
    "struct.semaphore", "struct.completion", "struct.seqcount", "struct.seqcount_spinlock",
    "struct.lockdep_map"]

/-- `isGenericContainerType`: one of the names, with or without a numeric suffix. -/
def isGenericContainerType (st : StructType) : Bool :=
  st.name.any fun n => genericContainers.any fun base =>
    n = base || (base ++ ".").toList.isPrefixOf n.toList

/-- One step of `climbGEPs` from a pointer to the one it was computed from. -/
inductive ChainStep
  /-- A GEP: its source type, if that is a struct, and its offset, if that is constant. -/
  | gep (sourceType : Option StructType) (constantOffset : Option ℤ)
  | bitCast
  | addrSpaceCast
  deriving DecidableEq, Repr

/-- What `getUnderlyingObject` finds. -/
inductive UnderlyingObject
  /-- A global variable, with its name. -/
  | global (name : Option String)
  /-- A stack slot: its type, if that is a struct, whether its address escapes by a known sink, and
  its name and address. -/
  | alloca (allocatedType : Option StructType) (escapes : Bool) (name : Option String)
      (address : String)
  /-- An argument of a function. -/
  | argument (function : Option String) (argNo : ℕ)
  /-- Any other value: its name, if it has one, and its address as it is printed. -/
  | value (name : Option String) (address : String)
  deriving DecidableEq, Repr

/-- The address of an access. -/
structure PointerValue where
  /-- The GEPs and casts, the leaf first. -/
  steps : List ChainStep
  /-- `getUnderlyingObject`. -/
  root : UnderlyingObject
  /-- The users of the pointer without its casts: for a GEP that starts at the pointer its source
  type, if that is a struct. -/
  users : List (Option StructType)
  deriving DecidableEq, Repr

/-- `SharedFieldKey::Kind`. -/
inductive SharedFieldKind
  | global | structField | unknown
  deriving DecidableEq, Repr

/-- `SharedFieldKey`: what identifies a field across functions: its kind, type and offset. -/
structure SharedFieldKey where
  /-- `kind`. -/
  kind : SharedFieldKind
  /-- `type_name`. -/
  typeName : String
  /-- `field_offset`. -/
  fieldOffset : ℤ
  deriving DecidableEq, Repr

attribute [ext] SharedFieldKey

namespace ChainStep

/-- The struct a step contributes. -/
def sourceType : ChainStep → Option StructType
  | .gep st _ => st
  | _ => none

/-- The offset a step adds. -/
def offset : ChainStep → ℤ
  | .gep _ off => off.getD 0
  | _ => 0

/-- The step is a GEP on a struct. -/
def isStructStep (step : ChainStep) : Bool := step.sourceType.isSome

/-- The step is a GEP on a struct that is no generic container. -/
def isOwnerStep (step : ChainStep) : Bool :=
  step.sourceType.any fun st => !isGenericContainerType st

end ChainStep

/-- The bound on the walks up a chain. -/
def kClimbGuard : ℕ := 32

/-- The variables of `climbGEPs`. -/
structure Climb where
  /-- `offsetOut`. -/
  offset : ℤ := 0
  /-- `structStack`. -/
  structStack : List StructType := []

/-- One round of `climbGEPs`. -/
def Climb.next (c : Climb) (step : ChainStep) : Climb where
  offset := c.offset + step.offset
  structStack := c.structStack ++ step.sourceType.toList

/-- `climbGEPs`: the steps from an address up to its object, as many as are followed. -/
def climbGEPs (steps : List ChainStep) : Climb := (steps.take kClimbGuard).foldl Climb.next {}

/-- The canonical struct: the outermost one that is no generic container, or else the innermost. -/
def canonicalStruct (structStack : List StructType) : Option StructType :=
  (structStack.reverse.find? fun st => !isGenericContainerType st) <|> structStack.head?

/-- The loop of `inferStructTypeFromUsers`. -/
def inferLoop : Option StructType → List (Option StructType) → Option StructType
  | best, [] => best
  | best, none :: users => inferLoop best users
  | best, some st :: users =>
    -- Container nodes say nothing about the owner; two different owners say nothing at all.
    if isGenericContainerType st then inferLoop best users
    else
      match best with
      | none => inferLoop (some st) users
      | some b => if b = st then inferLoop (some b) users else none

/-- `kMaxUsers`; the loop looks at one more. -/
def kMaxUsers : ℕ := 32

/-- `inferStructTypeFromUsers`: the structure that the users of an object agree on, if they do. -/
def inferStructTypeFromUsers (users : List (Option StructType)) : Option StructType :=
  inferLoop none (users.take (kMaxUsers + 1))

/-- `rootIdentifier`: a name for an object that no structure type is known of. -/
def rootIdentifier : UnderlyingObject → String
  | .global name => name.getD "anon.global"
  | .argument function argNo =>
    "param:" ++ function.getD "?" ++ "#" ++ toString argNo
  | .alloca _ _ name address => name.getD ("val@" ++ address)
  | .value name address => name.getD ("val@" ++ address)

namespace SharedFieldKey

/-- The part of `fromValue` for a value that is no global: the canonical struct, the type of an
escaped stack slot, the struct type of the users, or the root itself. -/
def ofChain (v : PointerValue) (isWholeObjectAccess : Bool) : SharedFieldKey :=
  let climb := climbGEPs v.steps
  match canonicalStruct climb.structStack with
  | some st => ⟨.structField, structTypeName st, climb.offset⟩
  | none =>
    match v.root with
    -- A stack slot that escapes, without a GEP on a struct.
    | .alloca (some st) _ _ _ => ⟨.structField, structTypeName st, climb.offset⟩
    | root =>
      match if isWholeObjectAccess then inferStructTypeFromUsers v.users else none with
      | some inferred => ⟨.structField, structTypeName inferred, 0⟩
      | none => ⟨.unknown, rootIdentifier root, climb.offset⟩

/-- `SharedFieldKey::fromValue`: the field that a pointer leads to, if another thread can reach
it. -/
def fromValue (v : PointerValue) (isWholeObjectAccess : Bool) : Option SharedFieldKey :=
  match v.root with
  -- A stack slot that does not escape is not shared.
  | .alloca _ false _ _ => none
  | .global name => some ⟨.global, name.getD "anon.global", (climbGEPs v.steps).offset⟩
  | _ => some (ofChain v isWholeObjectAccess)

/-- The level of a step, if it is a GEP: its struct and its offset. -/
def level : ChainStep → Option (Option StructType × ℤ)
  | .gep st off => some (st, off.getD 0)
  | .bitCast => none
  | .addrSpaceCast => none

/-- `climbGEPsLeveled`: the levels of the chain. -/
def climbGEPsLeveled (steps : List ChainStep) : List (Option StructType × ℤ) :=
  (steps.take kClimbGuard).filterMap level

/-- The loop of `fromValueAllAliases` over the levels; `cumOffset` is the offset so far. -/
def aliasLoop (out : List SharedFieldKey) (cumOffset : ℤ) :
    List (Option StructType × ℤ) → List SharedFieldKey
  | [] => out
  | (none, off) :: levels => aliasLoop out (cumOffset + off) levels
  | (some st, off) :: levels =>
    -- The offset is the one from the leaf up to this level.
    let aliasKey : SharedFieldKey := ⟨.structField, structTypeName st, cumOffset + off⟩
    if isGenericContainerType st || aliasKey ∈ out then aliasLoop out (cumOffset + off) levels
    else aliasLoop (out ++ [aliasKey]) (cumOffset + off) levels

/-- `SharedFieldKey::fromValueAllAliases`: all fields that a pointer may lead to, one for each
enclosing structure. -/
def fromValueAllAliases (v : PointerValue) (isWholeObjectAccess : Bool) : List SharedFieldKey :=
  let out := (fromValue v isWholeObjectAccess).toList
  let levels := climbGEPsLeveled v.steps
  if levels.length < 2 then out else aliasLoop out 0 levels

end SharedFieldKey

/-! ### The named struct -/

/-- The sum of the offsets of some steps. -/
def offsetSum (steps : List ChainStep) : ℤ := (steps.map ChainStep.offset).sum

/-- The chain from the leaf up to the GEP whose source type gives the type name: the outermost one
on a struct that is no generic container, or else the innermost one on a struct. -/
def inside (steps : List ChainStep) : List ChainStep :=
  if steps.any ChainStep.isOwnerStep then steps.rdropWhile fun step => !step.isOwnerStep
  else if steps.any ChainStep.isStructStep then
    steps.take (steps.findIdx ChainStep.isStructStep + 1)
  else []

/-- The chain beyond that GEP, towards the underlying object. -/
def outside (steps : List ChainStep) : List ChainStep :=
  if steps.any ChainStep.isOwnerStep then steps.rtakeWhile fun step => !step.isOwnerStep
  else if steps.any ChainStep.isStructStep then
    steps.drop (steps.findIdx ChainStep.isStructStep + 1)
  else []

/-- The structs of some steps. -/
def structs (steps : List ChainStep) : List StructType := steps.filterMap ChainStep.sourceType

variable {steps : List ChainStep} {v w : PointerValue} {whole : Bool} {key : SharedFieldKey}

theorem offsetSum_append (l l' : List ChainStep) :
    offsetSum (l ++ l') = offsetSum l + offsetSum l' := by
  rw [offsetSum, List.map_append, List.sum_append]
  rfl

theorem foldl_next (c : Climb) (steps : List ChainStep) :
    steps.foldl Climb.next c =
      { offset := c.offset + offsetSum steps, structStack := c.structStack ++ structs steps } := by
  induction steps generalizing c with
  | nil => simp [offsetSum, structs]
  | cons step steps ih =>
    rw [List.foldl_cons, ih]
    have hoffset : offsetSum (step :: steps) = step.offset + offsetSum steps := by
      simp [offsetSum]
    have hstructs : structs (step :: steps) = step.sourceType.toList ++ structs steps := by
      cases h : step.sourceType <;> simp [structs, h]
    rw [hoffset, hstructs, Climb.next, List.append_assoc, add_assoc]

/-- Within the bound the walk sees the whole chain. -/
theorem climbGEPs_eq (hlen : steps.length ≤ kClimbGuard) :
    climbGEPs steps = { offset := offsetSum steps, structStack := structs steps } := by
  rw [climbGEPs, List.take_of_length_le hlen, foldl_next]
  simp

/-- Where a struct is on the chain, the two parts make up the chain. -/
theorem inside_append_outside (hstruct : steps.any ChainStep.isStructStep) :
    inside steps ++ outside steps = steps := by
  unfold inside outside
  split_ifs with howner
  · exact List.rdropWhile_append_rtakeWhile
  · exact List.take_append_drop _ steps

theorem any_isStructStep (howner : steps.any ChainStep.isOwnerStep) :
    steps.any ChainStep.isStructStep := by
  obtain ⟨step, hmem, hstep⟩ := List.any_eq_true.mp howner
  obtain ⟨st, hst, -⟩ := (Option.any_eq_true _ _).mp hstep
  exact List.any_eq_true.mpr ⟨step, hmem, by simp [ChainStep.isStructStep, hst]⟩

/-- An owner on the chain stops the walk from the outside. -/
theorem owners_ne_nil (howner : steps.any ChainStep.isOwnerStep) :
    (steps.rdropWhile fun step => !step.isOwnerStep) ≠ [] := by
  rw [Ne, List.rdropWhile_eq_nil_iff]
  intro hall
  obtain ⟨step, hmem, hstep⟩ := List.any_eq_true.mp howner
  simpa [hstep] using hall step hmem

/-- The outermost struct that is no generic container belongs to the last step inside. -/
theorem find?_structs (steps : List ChainStep) :
    ((structs steps).reverse.find? fun st => !isGenericContainerType st) =
      (steps.rdropWhile fun step => !step.isOwnerStep).getLast?.bind ChainStep.sourceType := by
  induction steps using List.reverseRecOn with
  | nil => rfl
  | append_singleton steps step ih =>
    -- The induction is on the outermost step: an owner ends both searches, others are skipped.
    have hstructs : structs (steps ++ [step]) = structs steps ++ step.sourceType.toList := by
      cases h : step.sourceType <;> simp [structs, h]
    rw [hstructs, List.reverse_append]
    by_cases howner : step.isOwnerStep = true
    · rw [List.rdropWhile_concat_neg _ _ _ (by simp [howner]), List.getLast?_concat]
      obtain ⟨st, hst, hgeneric⟩ := (Option.any_eq_true _ _).mp howner
      simp only [Option.bind_some, hst, Option.toList_some, List.reverse_singleton,
        List.singleton_append, List.find?_cons, hgeneric]
    · rw [List.rdropWhile_concat_pos _ _ _ (by simp [howner]), ← ih]
      cases hst : step.sourceType with
      | none => rfl
      | some st =>
        have hgeneric : (!isGenericContainerType st) = false := by
          simpa [ChainStep.isOwnerStep, hst] using howner
        simp only [Option.toList_some, List.reverse_singleton, List.singleton_append,
          List.find?_cons, hgeneric]

/-- The innermost struct belongs to the first step that is a GEP on a struct. -/
theorem head?_structs (steps : List ChainStep) :
    (structs steps).head? =
      (steps[steps.findIdx ChainStep.isStructStep]?).bind ChainStep.sourceType := by
  induction steps with
  | nil => rfl
  | cons step steps ih =>
    cases hst : step.sourceType with
    | none =>
      have hno : step.isStructStep = false := by simp [ChainStep.isStructStep, hst]
      simpa [structs, hst, List.findIdx_cons, hno] using ih
    | some st =>
      have hyes : step.isStructStep = true := by simp [ChainStep.isStructStep, hst]
      simp [structs, hst, List.findIdx_cons, hyes]

/-- The named struct is the source type of the last GEP inside. -/
theorem canonicalStruct_eq (hstruct : steps.any ChainStep.isStructStep) :
    canonicalStruct (structs steps) = (inside steps).getLast?.bind ChainStep.sourceType := by
  unfold canonicalStruct inside
  rw [find?_structs, head?_structs]
  by_cases howner : steps.any ChainStep.isOwnerStep = true
  · rw [if_pos howner]
    have hne := owners_ne_nil howner
    have hlast := List.rdropWhile_last_not _ steps hne
    rw [List.getLast?_eq_some_getLast hne, Option.bind_some]
    have hsome : ((steps.rdropWhile fun step => !step.isOwnerStep).getLast hne).isOwnerStep := by
      simpa using hlast
    obtain ⟨st, hst, -⟩ := (Option.any_eq_true _ _).mp hsome
    rw [hst]
    rfl
  -- Without an owner the innermost struct is named.
  · have hnone : (steps.rdropWhile fun step => !step.isOwnerStep) = [] := by
      rw [List.rdropWhile_eq_nil_iff]
      intro step hmem
      simpa using fun hstep => howner (List.any_eq_true.mpr ⟨step, hmem, hstep⟩)
    have hlt : steps.findIdx ChainStep.isStructStep < steps.length := by
      rw [List.findIdx_lt_length]
      simpa using hstruct
    rw [if_neg howner, if_pos hstruct, hnone, List.getLast?_take, if_neg (Nat.succ_ne_zero _),
      Nat.add_sub_cancel, List.getElem?_eq_getElem hlt]
    rfl

theorem canonicalStruct_eq_none : canonicalStruct (structs steps) = none ↔
    ¬steps.any ChainStep.isStructStep := by
  constructor
  · intro hnone hstruct
    rw [canonicalStruct, Option.orElse_eq_none, head?_structs] at hnone
    -- The first step on a struct gives the outermost one.
    have hlt : steps.findIdx ChainStep.isStructStep < steps.length := by
      rw [List.findIdx_lt_length]
      simpa using hstruct
    have hstep := List.findIdx_getElem (w := hlt)
    obtain ⟨st, hst⟩ := Option.isSome_iff_exists.mp hstep
    rw [List.getElem?_eq_getElem hlt, Option.bind_some, hst] at hnone
    cases hnone.2
  · intro hno
    have hstructs : structs steps = [] := by
      rw [structs, List.filterMap_eq_nil_iff]
      intro step hmem
      by_contra hsome
      exact hno (List.any_eq_true.mpr ⟨step, hmem, Option.isSome_iff_ne_none.mpr hsome⟩)
    rw [hstructs]
    rfl

/-! ### The offset of a key -/

/-- The underlying object is neither a global variable nor a stack slot. -/
def UnderlyingObject.isPlain : UnderlyingObject → Bool
  | .argument .. | .value .. => true
  | _ => false

/-- `fromValue` gives the value a key for a field of a struct: its chain is within the bound of the
walk, and is rooted at no global variable or stack slot. -/
structure FieldAccess (v : PointerValue) (whole : Bool) (key : SharedFieldKey) : Prop where
  /-- The chain is within the bound. -/
  bounded : v.steps.length ≤ kClimbGuard
  /-- The root is plain. -/
  root : v.root.isPlain
  /-- The value has the key. -/
  fromValue : SharedFieldKey.fromValue v whole = some key
  /-- The key is one for a field of a struct. -/
  kind : key.kind = .structField

/-- Where the key of a field comes from: the canonical struct of the chain, or, where no struct is
on the chain, the users of the pointer. -/
theorem FieldAccess.cases (h : FieldAccess v whole key) :
    (v.steps.any ChainStep.isStructStep ∧
        (canonicalStruct (structs v.steps)).map structTypeName = some key.typeName ∧
        key.fieldOffset = offsetSum v.steps) ∨
      (¬v.steps.any ChainStep.isStructStep ∧ key.fieldOffset = 0) := by
  obtain ⟨hlen, hroot, hkey, hkind⟩ := h
  have hchain : SharedFieldKey.ofChain v whole = key := by
    unfold SharedFieldKey.fromValue at hkey
    cases hv : v.root with
    | global name => simp [hv, UnderlyingObject.isPlain] at hroot
    | alloca st escapes name address => simp [hv, UnderlyingObject.isPlain] at hroot
    | argument function argNo => simpa [hv] using hkey
    | value name address => simpa [hv] using hkey
  unfold SharedFieldKey.ofChain at hchain
  rw [climbGEPs_eq hlen] at hchain
  dsimp only at hchain
  -- A struct on the chain names the key; otherwise a field key comes from the users.
  cases hst : canonicalStruct (structs v.steps) with
  | some st =>
    rw [hst] at hchain
    subst hchain
    refine .inl ⟨?_, rfl, rfl⟩
    by_contra hno
    rw [canonicalStruct_eq_none.mpr hno] at hst
    cases hst
  | none =>
    rw [hst] at hchain
    refine .inr ⟨canonicalStruct_eq_none.mp hst, ?_⟩
    dsimp only at hchain
    split at hchain
    · rename_i hv
      simp [hv, UnderlyingObject.isPlain] at hroot
    · split at hchain
      · subst hchain
        rfl
      · subst hchain
        cases hkind

/-- The type name of a field key is that of the last GEP inside. -/
theorem FieldAccess.typeName_eq (h : FieldAccess v whole key)
    (hstruct : v.steps.any ChainStep.isStructStep) :
    ((inside v.steps).getLast?.bind ChainStep.sourceType).map structTypeName =
      some key.typeName := by
  rcases h.cases with ⟨-, hname, -⟩ | ⟨hno, -⟩
  · rw [← canonicalStruct_eq hstruct]
    exact hname
  · exact absurd hstruct hno

/-- The offset of a field key misses the offset inside the named struct by the offsets outside. -/
theorem FieldAccess.fieldOffset_eq (h : FieldAccess v whole key) :
    key.fieldOffset = offsetSum (inside v.steps) + offsetSum (outside v.steps) := by
  rcases h.cases with ⟨hstruct, -, hoffset⟩ | ⟨hno, hoffset⟩
  -- The walk adds up the whole chain.
  · rw [hoffset, ← offsetSum_append, inside_append_outside hstruct]
  · have howner : ¬v.steps.any ChainStep.isOwnerStep := fun h => hno (any_isStructStep h)
    rw [hoffset, inside, outside, if_neg howner, if_neg hno, if_neg howner, if_neg hno]
    rfl

/-- The offset of a field key is the offset of the access inside the named struct exactly if the
offsets of the GEPs outside cancel; two accesses for which they do, at one offset inside structs of
one name, have the same key. -/
theorem fieldOffset_iff (v : PointerValue) (whole : Bool) (key : SharedFieldKey)
    (h : FieldAccess v whole key) :
    (key.fieldOffset = offsetSum (inside v.steps) ↔ offsetSum (outside v.steps) = 0) ∧
      ∀ w whole' key', FieldAccess w whole' key' → key'.typeName = key.typeName →
        offsetSum (inside w.steps) = offsetSum (inside v.steps) →
        offsetSum (outside v.steps) = 0 → offsetSum (outside w.steps) = 0 → key' = key := by
  constructor
  · rw [h.fieldOffset_eq]
    constructor
    · intro hsame
      omega
    · intro hzero
      rw [hzero, add_zero]
  · intro w whole' key' hw hname hinside hv0 hw0
    -- Without offsets outside, both keys have the offset inside.
    have hoffset : key'.fieldOffset = key.fieldOffset := by
      rw [h.fieldOffset_eq, hw.fieldOffset_eq, hinside, hv0, hw0]
    have hkind : key'.kind = key.kind := by rw [h.kind, hw.kind]
    exact SharedFieldKey.ext hkind hname hoffset

/-- The field at byte 24 of a node, reached directly from an argument. -/
def directField : PointerValue where
  steps := [.gep (some ⟨"struct.node", "0x1"⟩) (some 24)]
  root := .argument "walk" 0
  users := []

/-- The same field, reached from the list entry at byte 16 of the node: `container_of` goes 16 bytes
back from the argument to the node. -/
def entryField : PointerValue where
  steps := [.gep (some ⟨"struct.node", "0x1"⟩) (some 24), .gep none (some (-16))]
  root := .argument "walk" 0
  users := []

theorem directField_access :
    FieldAccess directField false ⟨.structField, "struct.node", 24⟩ where
  bounded := by decide
  root := rfl
  fromValue := by decide +kernel
  kind := rfl

theorem entryField_access : FieldAccess entryField false ⟨.structField, "struct.node", 8⟩ where
  bounded := by decide
  root := rfl
  fromValue := by decide +kernel
  kind := rfl

/-- Through `container_of` the field gets the key of another field of its struct. -/
theorem entryField_shifted : ¬∀ v whole key, FieldAccess v whole key →
    key.fieldOffset = offsetSum (inside v.steps) ∧
      ∀ w whole' key', FieldAccess w whole' key' → key'.typeName = key.typeName →
        offsetSum (inside w.steps) = offsetSum (inside v.steps) → key' = key := by
  intro hall
  have hsame := (hall _ _ _ entryField_access).1
  revert hsame
  decide +kernel

/-- The direct access has the key of its field. -/
theorem directField_offset : (24 : ℤ) = offsetSum (inside directField.steps) :=
  (fieldOffset_iff directField false _ directField_access).1.mpr (by decide +kernel)

/-! ### The keys of all levels -/

namespace SharedFieldKey

theorem aliasLoop_subset (out : List SharedFieldKey) (cum : ℤ)
    (levels : List (Option StructType × ℤ)) : ∀ k ∈ out, k ∈ aliasLoop out cum levels := by
  intro k hk
  induction levels generalizing out cum with
  | nil => exact hk
  | cons level levels ih =>
    obtain ⟨st, off⟩ := level
    cases st with
    | none => exact ih out _ hk
    | some st =>
      dsimp only [aliasLoop]
      split
      · exact ih out _ hk
      · exact ih _ _ (List.mem_append_left _ hk)

/-- Every level with a struct that is no generic container gets a key with the offset up to it. -/
theorem mem_aliasLoop {out : List SharedFieldKey} {cum off : ℤ} {st : StructType}
    {inner outer : List (Option StructType × ℤ)} (hst : isGenericContainerType st = false) :
    ⟨.structField, structTypeName st, cum + ((inner.map Prod.snd).sum + off)⟩ ∈
      aliasLoop out cum (inner ++ (some st, off) :: outer) := by
  induction inner generalizing out cum with
  | nil =>
    dsimp only [List.nil_append, aliasLoop]
    simp only [List.map_nil, List.sum_nil, zero_add, hst, Bool.false_or, decide_eq_true_eq]
    -- The key is there already, or is appended, and the loop keeps what it has.
    split_ifs with hmem
    · exact aliasLoop_subset _ _ _ _ hmem
    · exact aliasLoop_subset _ _ _ _ (List.mem_append_right _ (List.mem_singleton_self _))
  | cons level inner ih =>
    obtain ⟨st', off'⟩ := level
    have hsum : cum + (((st', off') :: inner).map Prod.snd).sum + off =
        cum + off' + ((inner.map Prod.snd).sum + off) := by
      simp only [List.map_cons, List.sum_cons]
      omega
    rw [← add_assoc, hsum]
    cases st' with
    | none => exact ih
    | some st' =>
      dsimp only [List.cons_append, aliasLoop]
      split
      · exact ih
      · exact ih

theorem climbGEPsLeveled_eq {steps : List ChainStep} (hlen : steps.length ≤ kClimbGuard) :
    climbGEPsLeveled steps = steps.filterMap level := by
  rw [climbGEPsLeveled, List.take_of_length_le hlen]

/-- The levels of some steps add up to the offsets of the steps. -/
theorem sum_levels (steps : List ChainStep) :
    ((steps.filterMap level).map Prod.snd).sum = offsetSum steps := by
  induction steps with
  | nil => rfl
  | cons step steps ih =>
    have hcons : offsetSum (step :: steps) = step.offset + offsetSum steps := by
      simp [offsetSum]
    rw [hcons, ← ih]
    cases step with
    | gep st off => simp [level, ChainStep.offset]
    -- Casts have no offset.
    | bitCast =>
      rw [List.filterMap_cons_none rfl]
      exact (zero_add _).symm
    | addrSpaceCast =>
      rw [List.filterMap_cons_none rfl]
      exact (zero_add _).symm

/-- A chain with an owner ends inside at a GEP on the owner. -/
theorem inside_eq_concat {steps : List ChainStep} (howner : steps.any ChainStep.isOwnerStep) :
    ∃ inner st off, inside steps = inner ++ [.gep (some st) off] ∧
      isGenericContainerType st = false := by
  have hne := owners_ne_nil howner
  have hlast := List.rdropWhile_last_not _ steps hne
  have hinside : inside steps = steps.rdropWhile fun step => !step.isOwnerStep := by
    rw [inside, if_pos howner]
  have hconcat := List.dropLast_append_getLast hne
  rw [hinside]
  -- The last step left is one on the owner, so it is a GEP.
  cases hstep : (steps.rdropWhile fun step => !step.isOwnerStep).getLast hne with
  | gep st off =>
    rw [hstep] at hlast hconcat
    cases st with
    | none => simp [ChainStep.isOwnerStep, ChainStep.sourceType] at hlast
    | some st =>
      have hst : isGenericContainerType st = false := by
        simpa [ChainStep.isOwnerStep, ChainStep.sourceType] using hlast
      exact ⟨_, st, off, hconcat.symm, hst⟩
  | bitCast =>
    rw [hstep] at hlast
    exact absurd rfl hlast
  | addrSpaceCast =>
    rw [hstep] at hlast
    exact absurd rfl hlast

/-- The aliases make up for the canonical key: where an owner is on the chain, the key of the named
struct with the offset inside it is among them. -/
theorem mem_fromValueAllAliases {v : PointerValue} {whole : Bool} {key : SharedFieldKey}
    (h : FieldAccess v whole key) (howner : v.steps.any ChainStep.isOwnerStep) :
    ⟨.structField, key.typeName, offsetSum (inside v.steps)⟩ ∈ fromValueAllAliases v whole := by
  obtain ⟨inner, st, off, hinside, hst⟩ := inside_eq_concat howner
  have hstruct := any_isStructStep howner
  have hname : key.typeName = structTypeName st := by
    have htype := h.typeName_eq hstruct
    rw [hinside, List.getLast?_concat] at htype
    exact (Option.some.inj htype).symm
  have hlevels : climbGEPsLeveled v.steps =
      inner.filterMap level ++ (some st, off.getD 0) :: (outside v.steps).filterMap level := by
    rw [climbGEPsLeveled_eq h.bounded]
    conv_lhs => rw [← inside_append_outside hstruct, hinside]
    simp [level]
  have hoffset : offsetSum (inside v.steps) =
      ((inner.filterMap level).map Prod.snd).sum + off.getD 0 := by
    rw [hinside, offsetSum_append, sum_levels]
    simp [offsetSum, ChainStep.offset]
  unfold fromValueAllAliases
  dsimp only
  split_ifs with hshort
  · -- A single GEP has nothing outside it, so the canonical key is right.
    have hnone : (outside v.steps).filterMap level = [] := by
      rw [hlevels] at hshort
      simp only [List.length_append, List.length_cons] at hshort
      exact List.eq_nil_of_length_eq_zero (by omega)
    have hzero : offsetSum (outside v.steps) = 0 := by
      rw [← sum_levels, hnone]
      rfl
    have hkey : key = ⟨.structField, key.typeName, offsetSum (inside v.steps)⟩ := by
      apply SharedFieldKey.ext
      · exact h.kind
      · rfl
      · show key.fieldOffset = offsetSum (inside v.steps)
        rw [h.fieldOffset_eq, hzero, add_zero]
    rw [← hkey, h.fromValue]
    exact List.mem_singleton_self _
  · rw [hlevels, hname, hoffset]
    have hmem : ⟨.structField, structTypeName st,
        0 + (((inner.filterMap level).map Prod.snd).sum + off.getD 0)⟩ ∈
          aliasLoop (fromValue v whole).toList 0
            (inner.filterMap level ++ (some st, off.getD 0) :: (outside v.steps).filterMap level) :=
      mem_aliasLoop hst
    rw [zero_add] at hmem
    exact hmem

end SharedFieldKey

end Lace
