import Lace.Library.DepthSearch
import Lace.Surface.SharedFieldKey

/-!
# Footprints of entry functions

The fields that a function writes and reads, itself or through direct calls up to a depth.
`collectFieldFootprint` follows a call where it meets it, `collectTierFootprint` collects the
function's own accesses first; both mark the functions they enter in one set for the whole walk.
Two entries share data if one writes a field that the other touches. A set of the source is the
list of its elements here.

## Main definitions

* `Module`: the functions of a module, with the instructions the footprints look at;
* `Module.collectFieldFootprint`, `Module.collectTierFootprint`, `Module.doEntriesHaveSharedData`:
  the functions of the source;
* `Module.FootprintsComplete`: both footprints are the unions over the functions within the budget;
* `Module.EntriesTouchAll`: the functions that are entered touch all fields.

## Main results

* `Module.keys_collectFieldFootprint`, `Module.keys_collectTierFootprint`: both footprints are the
  unions over the functions that the depth-first search marks;
* `Module.footprintsComplete_iff`: when they are complete.
-/

namespace Lace

open Library

/-- The instructions that the footprints look at. -/
inductive Instruction
  | store (pointerOperand : PointerValue)
  | load (pointerOperand : PointerValue)
  /-- A call, with `getCalledFunction`: no function if the call is indirect. -/
  | call (calledFunction : Option String)
  deriving DecidableEq, Repr

/-- `llvm::Function`. -/
structure Function where
  /-- `getName`. -/
  name : String
  /-- `isDeclaration`. -/
  isDeclaration : Bool
  /-- The instructions of all blocks in their order. -/
  instructions : List Instruction
  deriving DecidableEq, Repr

/-- `llvm::Module`. -/
structure Module where
  /-- The functions. -/
  functions : List Function
  deriving DecidableEq, Repr

/-- The two kinds of accesses. -/
inductive AccessKind
  | write | read
  deriving DecidableEq, Repr

/-- The visited set, the `writes` and the `reads` of a walk. -/
structure Footprint where
  /-- `visited`. -/
  visited : List String := []
  /-- `writes`. -/
  writes : List SharedFieldKey := []
  /-- `reads`. -/
  reads : List SharedFieldKey := []
  deriving DecidableEq, Repr

namespace Footprint

/-- The fields that are accessed in one way. -/
def keys (fp : Footprint) : AccessKind → List SharedFieldKey
  | .write => fp.writes
  | .read => fp.reads

/-- Insert the field, if there is one, into `writes` or `reads`. -/
def addKey (fp : Footprint) : AccessKind → Option SharedFieldKey → Footprint
  | _, none => fp
  | .write, some key => { fp with writes := fp.writes.insert key }
  | .read, some key => { fp with reads := fp.reads.insert key }

/-- The branches for stores and loads. -/
def access (fp : Footprint) : Instruction → Footprint
  | .store ptr => fp.addKey .write (SharedFieldKey.fromValue ptr false)
  | .load ptr => fp.addKey .read (SharedFieldKey.fromValue ptr false)
  | .call _ => fp

/-- `footprintsConflict`: one of the two writes a field that the other touches. -/
def conflict (a b : Footprint) : Bool :=
  (a.writes.any fun k => k ∈ b.writes || k ∈ b.reads) || b.writes.any fun k => k ∈ a.reads

end Footprint

/-- The field that an instruction accesses in one way. -/
def Instruction.key (kind : AccessKind) : Instruction → Option SharedFieldKey
  | .store ptr => if kind = .write then SharedFieldKey.fromValue ptr false else none
  | .load ptr => if kind = .read then SharedFieldKey.fromValue ptr false else none
  | .call _ => none

namespace Footprint

@[simp]
theorem visited_addKey (fp : Footprint) (kind : AccessKind) (key : Option SharedFieldKey) :
    (fp.addKey kind key).visited = fp.visited := by
  cases key with
  | none => rfl
  | some key => cases kind <;> rfl

/-- Recording a key adds that key, under its kind alone. -/
theorem mem_keys_addKey (fp : Footprint) (kind kind' : AccessKind) (key : Option SharedFieldKey)
    (k : SharedFieldKey) :
    k ∈ (fp.addKey kind' key).keys kind ↔
      k ∈ fp.keys kind ∨ (if kind = kind' then key else none) = some k := by
  cases key with
  | none => simp [addKey]
  | some key => cases kind <;> cases kind' <;> simp [addKey, keys, or_comm, eq_comm]

@[simp]
theorem visited_access (fp : Footprint) (inst : Instruction) :
    (fp.access inst).visited = fp.visited := by
  cases inst with
  | store ptr => exact fp.visited_addKey _ _
  | load ptr => exact fp.visited_addKey _ _
  | call callee => rfl

/-- An instruction adds the keys it touches. -/
theorem mem_keys_access (fp : Footprint) (inst : Instruction) (kind : AccessKind)
    (k : SharedFieldKey) :
    k ∈ (fp.access inst).keys kind ↔ k ∈ fp.keys kind ∨ inst.key kind = some k := by
  cases inst with
  | store ptr => exact fp.mem_keys_addKey kind .write _ k
  | load ptr => exact fp.mem_keys_addKey kind .read _ k
  | call callee => simp [access, Instruction.key]

/-- One of two footprints writes a field that the other touches. -/
theorem conflict_iff (a b : Footprint) :
    a.conflict b = true ↔ ∃ key, key ∈ a.keys .write ∧ (key ∈ b.keys .write ∨ key ∈ b.keys .read) ∨
      key ∈ b.keys .write ∧ key ∈ a.keys .read := by
  simp only [conflict, Bool.or_eq_true, List.any_eq_true, decide_eq_true_eq, keys]
  constructor
  · rintro (⟨key, hkey⟩ | ⟨key, hkey⟩)
    · exact ⟨key, .inl hkey⟩
    · exact ⟨key, .inr hkey⟩
  · rintro ⟨key, hkey | hkey⟩
    · exact .inl ⟨key, hkey⟩
    · exact .inr ⟨key, hkey⟩

end Footprint

namespace Module

variable (M : Module)

/-- `getFunction`. -/
def getFunction (name : String) : Option Function := M.functions.find? fun f => f.name = name

/-- The instructions of a function that is more than a declaration. -/
def definition (name : String) : Option (List Instruction) :=
  match M.getFunction name with
  | some f => if f.isDeclaration then none else some f.instructions
  | none => none

/-- The defined function that an instruction calls directly. -/
def directCallee : Instruction → Option String
  | .call (some callee) => if (M.definition callee).isSome then some callee else none
  | _ => none

/-- `buildDirectCallGraph`: the defined functions that a function calls directly. -/
def directCalls (name : String) : List String :=
  ((M.definition name).getD []).filterMap M.directCallee

/-- `collectFieldFootprint`. The budget is one more than `depth`, so that it is `0` where the
source's is negative. -/
def collectFieldFootprint : ℕ → String → Footprint → Footprint
  | 0, _, fp => fp
  | depth + 1, name, fp =>
    match M.definition name with
    | none => fp
    | some instructions =>
      -- The mark is never taken back, whatever budget the function was entered with.
      if name ∈ fp.visited then fp
      else
        instructions.foldl (fun fp inst =>
            match inst with
            -- A call is followed where it stands.
            | .call (some callee) => collectFieldFootprint depth callee fp
            | inst => fp.access inst)
          { fp with visited := name :: fp.visited }

/-- `collectTierFootprint`, with the same budget. -/
def collectTierFootprint : ℕ → String → Footprint → Footprint
  | 0, _, fp => fp
  | depth + 1, name, fp =>
    match M.definition name with
    | none => fp
    | some instructions =>
      -- The own accesses come first, then the callees.
      if name ∈ fp.visited then fp
      else
        (M.directCalls name).foldl (fun fp callee => collectTierFootprint depth callee fp)
          (instructions.foldl Footprint.access { fp with visited := name :: fp.visited })

/-- The depth of the footprints that `getFieldsConflictingBetween` compares. -/
def conflictDepth : ℕ := 2

/-- `getFieldsConflictingBetween`: the fields over which two entries conflict. -/
def getFieldsConflictingBetween (e1 e2 : String) : List SharedFieldKey :=
  if (M.definition e1).isNone || (M.definition e2).isNone then []
  else
    let fp1 := M.collectFieldFootprint (conflictDepth + 1) e1 {}
    let fp2 := M.collectFieldFootprint (conflictDepth + 1) e2 {}
    -- A pair of accesses of which one is a write.
    let out := fp1.writes.filter fun k => k ∈ fp2.writes || k ∈ fp2.reads
    out ++ fp2.writes.filter fun k => k ∈ fp1.reads && k ∉ out

/-- `doEntriesHaveSharedData`: whether two entries conflict at all. -/
def doEntriesHaveSharedData (e1 e2 : String) : Bool :=
  !(M.getFieldsConflictingBetween e1 e2).isEmpty

/-! ### What the footprints promise -/

/-- The fields that a function accesses directly. -/
def directKeys (kind : AccessKind) (name : String) : List SharedFieldKey :=
  ((M.definition name).getD []).filterMap (Instruction.key kind)

/-- A function within some direct calls accesses the field. -/
def TouchedWithin (depth : ℕ) (name : String) (kind : AccessKind) (key : SharedFieldKey) : Prop :=
  ∃ g, Within M.directCalls depth name g ∧ key ∈ M.directKeys kind g

/-- Both footprints of a function are the unions over the functions within the depth. -/
structure FootprintsComplete (depth : ℕ) (name : String) : Prop where
  /-- The footprint of `collectFieldFootprint`. -/
  field : ∀ kind key, key ∈ (M.collectFieldFootprint (depth + 1) name {}).keys kind ↔
    M.TouchedWithin depth name kind key
  /-- The footprint of `collectTierFootprint`. -/
  tier : ∀ kind key, key ∈ (M.collectTierFootprint (depth + 1) name {}).keys kind ↔
    M.TouchedWithin depth name kind key

/-- The unions for two entries conflict. -/
def ConflictWithin (depth : ℕ) (e1 e2 : String) : Prop :=
  ∃ key, M.TouchedWithin depth e1 .write key ∧
      (M.TouchedWithin depth e2 .write key ∨ M.TouchedWithin depth e2 .read key) ∨
    M.TouchedWithin depth e2 .write key ∧ M.TouchedWithin depth e1 .read key

/-- Every field that a function within the depth accesses is accessed by the end of a first entry:
the call chains that are first, in the order of the calls, to end at their function. -/
def EntriesTouchAll (depth : ℕ) (name : String) : Prop :=
  ∃ S, FirstEntries M.directCalls depth name S ∧
    ∀ kind key, M.TouchedWithin depth name kind key →
      ∃ p ∈ S, ∃ g, walk M.directCalls name p = some g ∧ key ∈ M.directKeys kind g

variable {M} {fp fp' fp'' : Footprint} {own own' : AccessKind → SharedFieldKey → Prop}

/-! ### What a walk adds -/

/-- A walk adds the fields of the functions that it marks, and some accesses of its own. -/
structure Grows (M : Module) (fp fp' : Footprint) (own : AccessKind → SharedFieldKey → Prop) :
    Prop where
  /-- Marks stay. -/
  visited : ∀ g ∈ fp.visited, g ∈ fp'.visited
  /-- The fields that are there afterwards. -/
  keys : ∀ kind key, key ∈ fp'.keys kind ↔ key ∈ fp.keys kind ∨ own kind key ∨
    ∃ g ∈ fp'.visited, g ∉ fp.visited ∧ key ∈ M.directKeys kind g

/-- A walk that does nothing. -/
theorem Grows.refl (M : Module) (fp : Footprint) : Grows M fp fp fun _ _ => False where
  visited _ hg := hg
  keys kind key := by
    constructor
    · exact .inl
    · rintro (hkey | hno | ⟨g, hg, hnew, -⟩)
      · exact hkey
      · exact hno.elim
      · exact absurd hg hnew

/-- Two growths one after the other add what each adds. -/
theorem Grows.trans (h : Grows M fp fp' own) (h' : Grows M fp' fp'' own') :
    Grows M fp fp'' fun kind key => own kind key ∨ own' kind key where
  visited g hg := h'.visited g (h.visited g hg)
  keys kind key := by
    rw [h'.keys, h.keys]
    constructor
    · rintro ((hkey | hown | ⟨g, hg, hnew, hkey⟩) | hown | ⟨g, hg, hnew, hkey⟩)
      · exact .inl hkey
      · exact .inr (.inl (.inl hown))
      · exact .inr (.inr ⟨g, h'.visited g hg, hnew, hkey⟩)
      · exact .inr (.inl (.inr hown))
      · exact .inr (.inr ⟨g, hg, fun hold => hnew (h.visited g hold), hkey⟩)
    · rintro (hkey | (hown | hown) | ⟨g, hg, hnew, hkey⟩)
      · exact .inl (.inl hkey)
      · exact .inl (.inr (.inl hown))
      · exact .inr (.inl hown)
      · -- The function was marked by the first walk or by the second one.
        by_cases hmid : g ∈ fp'.visited
        · exact .inl (.inr (.inr ⟨g, hmid, hnew, hkey⟩))
        · exact .inr (.inr ⟨g, hg, hmid, hkey⟩)

/-- What a growth adds may be described by any equivalent condition. -/
theorem Grows.congr (h : Grows M fp fp' own) (hown : ∀ kind key, own kind key ↔ own' kind key) :
    Grows M fp fp' own' where
  visited := h.visited
  keys kind key := by
    rw [h.keys, hown]

/-- A single access. -/
theorem grows_access (M : Module) (fp : Footprint) (inst : Instruction) :
    Grows M fp (fp.access inst) fun kind key => inst.key kind = some key where
  visited g hg := by rwa [fp.visited_access]
  keys kind key := by
    have hnone : ¬∃ g ∈ (fp.access inst).visited, g ∉ fp.visited ∧ key ∈ M.directKeys kind g := by
      rw [fp.visited_access]
      rintro ⟨g, hg, hnew, -⟩
      exact hnew hg
    rw [or_iff_left hnone, fp.mem_keys_access]

/-- A loop all rounds of which grow. -/
theorem grows_foldl {ι : Type} (f : Footprint → ι → Footprint)
    (own : ι → AccessKind → SharedFieldKey → Prop) (l : List ι) (fp : Footprint)
    (hf : ∀ i ∈ l, ∀ fp, Grows M fp (f fp i) (own i)) :
    Grows M fp (l.foldl f fp) fun kind key => ∃ i ∈ l, own i kind key := by
  induction l generalizing fp with
  | nil => exact (Grows.refl M fp).congr fun kind key => by simp
  | cons i l ih =>
    have hhead := hf i List.mem_cons_self fp
    have htail := ih (f fp i) fun j hj => hf j (List.mem_cons_of_mem i hj)
    exact (hhead.trans htail).congr fun kind key => by simp

/-- Marking a function and adding its own accesses amounts to adding the marked functions. -/
theorem grows_enter {name : String} (hnew : name ∉ fp.visited)
    (h : Grows M { fp with visited := name :: fp.visited } fp' fun kind key =>
      key ∈ M.directKeys kind name) :
    Grows M fp fp' fun _ _ => False where
  visited g hg := h.visited g (List.mem_cons_of_mem name hg)
  keys kind key := by
    rw [h.keys kind key]
    constructor
    · rintro (hkey | hown | ⟨g, hg, hne, hkey⟩)
      · exact .inl hkey
      · exact .inr (.inr ⟨name, h.visited name List.mem_cons_self, hnew, hown⟩)
      · exact .inr (.inr ⟨g, hg, fun hold => hne (List.mem_cons_of_mem name hold), hkey⟩)
    · rintro (hkey | hno | ⟨g, hg, hne, hkey⟩)
      · exact .inl hkey
      · exact hno.elim
      · by_cases heq : g = name
        · exact .inr (.inl (heq ▸ hkey))
        · exact .inr (.inr ⟨g, hg, by simp [heq, hne], hkey⟩)

/-- The direct keys of a function are those of its own instructions. -/
theorem mem_directKeys {name : String} {instructions : List Instruction}
    (hdef : M.definition name = some instructions) (kind : AccessKind) (key : SharedFieldKey) :
    key ∈ M.directKeys kind name ↔ ∃ inst ∈ instructions, inst.key kind = some key := by
  rw [directKeys, hdef, Option.getD_some, List.mem_filterMap]

/-- `collectFieldFootprint` adds the fields of the functions that it marks. -/
theorem grows_collectFieldFootprint (depth : ℕ) (name : String) (fp : Footprint) :
    Grows M fp (M.collectFieldFootprint depth name fp) fun _ _ => False := by
  induction depth generalizing name fp with
  | zero => exact Grows.refl M fp
  | succ depth ih =>
    unfold collectFieldFootprint
    cases hdef : M.definition name with
    | none => exact Grows.refl M fp
    | some instructions =>
      dsimp only
      split_ifs with hold
      · exact Grows.refl M fp
      · refine grows_enter hold ((grows_foldl _ (fun inst kind key => inst.key kind = some key)
          instructions _ ?_).congr fun kind key => (mem_directKeys hdef kind key).symm)
        -- A call grows by the functions it marks, any other instruction by its access.
        intro inst _ fp
        split
        · exact (ih _ fp).congr fun kind key => by simp [Instruction.key]
        · exact grows_access M fp inst

/-- `collectTierFootprint` adds the fields of the functions that it marks. -/
theorem grows_collectTierFootprint (depth : ℕ) (name : String) (fp : Footprint) :
    Grows M fp (M.collectTierFootprint depth name fp) fun _ _ => False := by
  induction depth generalizing name fp with
  | zero => exact Grows.refl M fp
  | succ depth ih =>
    unfold collectTierFootprint
    cases hdef : M.definition name with
    | none => exact Grows.refl M fp
    | some instructions =>
      dsimp only
      split_ifs with hold
      · exact Grows.refl M fp
      · have hown := grows_foldl (M := M) Footprint.access _ instructions
          { fp with visited := name :: fp.visited } fun inst _ fp => grows_access M fp inst
        have hcalls := grows_foldl _ (fun _ _ _ => False) (M.directCalls name)
          (instructions.foldl Footprint.access { fp with visited := name :: fp.visited })
          fun callee _ fp => ih callee fp
        refine grows_enter hold ((hown.trans hcalls).congr fun kind key => ?_)
        rw [mem_directKeys hdef]
        simp

/-! ### The marked functions -/

/-- The marks after a loop over instructions whose calls mark functions. -/
theorem visited_foldl_calls (collect : String → Footprint → Footprint)
    (mark : List String → String → List String)
    (hcollect : ∀ callee fp, (collect callee fp).visited =
      if (M.definition callee).isSome then mark fp.visited callee else fp.visited)
    (instructions : List Instruction) (fp : Footprint) :
    (instructions.foldl (fun fp inst =>
        match inst with
        | .call (some callee) => collect callee fp
        | inst => fp.access inst) fp).visited =
      (instructions.filterMap M.directCallee).foldl mark fp.visited := by
  induction instructions generalizing fp with
  | nil => rfl
  | cons inst instructions ih =>
    rw [List.foldl_cons, ih]
    cases inst with
    | store ptr => rw [List.filterMap_cons_none rfl, fp.visited_access]
    | load ptr => rw [List.filterMap_cons_none rfl, fp.visited_access]
    | call callee =>
      cases callee with
      | none => rw [List.filterMap_cons_none rfl, fp.visited_access]
      | some callee =>
        dsimp only
        rw [hcollect]
        -- A call of a function that is only declared marks nothing.
        by_cases hdef : (M.definition callee).isSome = true
        · rw [if_pos hdef, List.filterMap_cons_some (by simp [directCallee, hdef]; rfl),
            List.foldl_cons]
        · rw [if_neg hdef, List.filterMap_cons_none (by simp [directCallee, hdef])]

/-- `collectFieldFootprint` marks what the depth-first search over the direct calls marks. -/
theorem visited_collectFieldFootprint (depth : ℕ) (name : String) (fp : Footprint) :
    (M.collectFieldFootprint (depth + 1) name fp).visited =
      if (M.definition name).isSome then depthSearch M.directCalls depth name fp.visited
      else fp.visited := by
  induction depth generalizing name fp with
  | zero =>
    unfold collectFieldFootprint
    cases hdef : M.definition name with
    | none => rfl
    | some instructions =>
      rw [Option.isSome_some, if_pos rfl, depthSearch]
      dsimp only
      split_ifs with hold
      · rfl
      · -- The depth is used up, so no call is followed.
        rw [visited_foldl_calls (M := M) (M.collectFieldFootprint 0) (fun seen _ => seen)
          fun callee fp => (ite_self _).symm]
        exact List.foldl_fixed' (fun _ => rfl) _
  | succ depth ih =>
    unfold collectFieldFootprint
    cases hdef : M.definition name with
    | none => rfl
    | some instructions =>
      rw [Option.isSome_some, if_pos rfl, depthSearch]
      dsimp only
      split_ifs with hold
      · rfl
      · rw [visited_foldl_calls (M.collectFieldFootprint (depth + 1))
          (fun seen y => depthSearch M.directCalls depth y seen) ih, directCalls, hdef]
        rfl

/-- The marks after a loop over defined functions that marks functions. -/
theorem visited_foldl_directCalls (collect : String → Footprint → Footprint)
    (mark : List String → String → List String)
    (hcollect : ∀ callee fp, (collect callee fp).visited =
      if (M.definition callee).isSome then mark fp.visited callee else fp.visited)
    (callees : List String) (hdef : ∀ c ∈ callees, (M.definition c).isSome) (fp : Footprint) :
    (callees.foldl (fun fp callee => collect callee fp) fp).visited =
      callees.foldl mark fp.visited := by
  induction callees generalizing fp with
  | nil => rfl
  | cons callee callees ih =>
    rw [List.foldl_cons, ih fun c hc => hdef c (List.mem_cons_of_mem callee hc), hcollect,
      if_pos (hdef callee List.mem_cons_self), List.foldl_cons]

/-- The functions of the call graph are defined. -/
theorem isSome_of_mem_directCalls {name callee : String} (h : callee ∈ M.directCalls name) :
    (M.definition callee).isSome := by
  obtain ⟨inst, -, hinst⟩ := List.mem_filterMap.mp h
  unfold directCallee at hinst
  split at hinst
  · split_ifs at hinst with hdef
    cases hinst
    exact hdef
  · cases hinst

/-- The body of a function visits no other function by itself. -/
theorem visited_foldl_access (instructions : List Instruction) (fp : Footprint) :
    (instructions.foldl Footprint.access fp).visited = fp.visited := by
  induction instructions generalizing fp with
  | nil => rfl
  | cons inst instructions ih => rw [List.foldl_cons, ih, fp.visited_access]

/-- `collectTierFootprint` marks the same functions. -/
theorem visited_collectTierFootprint (depth : ℕ) (name : String) (fp : Footprint) :
    (M.collectTierFootprint (depth + 1) name fp).visited =
      if (M.definition name).isSome then depthSearch M.directCalls depth name fp.visited
      else fp.visited := by
  induction depth generalizing name fp with
  | zero =>
    unfold collectTierFootprint
    cases hdef : M.definition name with
    | none => rfl
    | some instructions =>
      rw [Option.isSome_some, if_pos rfl, depthSearch]
      dsimp only
      split_ifs with hold
      · rfl
      · -- The depth is used up, so no call is followed.
        rw [visited_foldl_directCalls (M.collectTierFootprint 0) (fun seen _ => seen)
          (fun callee fp => (ite_self _).symm) _ (fun _ => isSome_of_mem_directCalls),
          visited_foldl_access]
        exact List.foldl_fixed' (fun _ => rfl) _
  | succ depth ih =>
    unfold collectTierFootprint
    cases hdef : M.definition name with
    | none => rfl
    | some instructions =>
      rw [Option.isSome_some, if_pos rfl, depthSearch]
      dsimp only
      split_ifs with hold
      · rfl
      · rw [visited_foldl_directCalls (M.collectTierFootprint (depth + 1))
          (fun seen y => depthSearch M.directCalls depth y seen) ih _
          (fun _ => isSome_of_mem_directCalls), visited_foldl_access]

/-! ### The footprints -/

/-- No chain of calls leads from an undefined function to an access. -/
theorem not_mem_directKeys_of_undefined {name g : String} (hdef : M.definition name = none)
    {p : List ℕ} (hp : walk M.directCalls name p = some g) (kind : AccessKind)
    (key : SharedFieldKey) : key ∉ M.directKeys kind g := by
  cases p with
  | nil =>
    cases hp
    rw [directKeys, hdef]
    exact List.not_mem_nil
  | cons i p =>
    rw [walk, directCalls, hdef] at hp
    cases hp

/-- A walk that grows from nothing by what the depth-first search marks collects the fields of the
ends of the first entries. -/
theorem mem_keys_of_grows {depth : ℕ} {name : String} {S : Set (List ℕ)}
    (hS : FirstEntries M.directCalls depth name S)
    (hgrows : Grows M {} fp fun _ _ => False)
    (hvisited : fp.visited =
      if (M.definition name).isSome then depthSearch M.directCalls depth name [] else [])
    (kind : AccessKind) (key : SharedFieldKey) :
    key ∈ fp.keys kind ↔
      ∃ p ∈ S, ∃ g, walk M.directCalls name p = some g ∧ key ∈ M.directKeys kind g := by
  have hnil : key ∉ ({} : Footprint).keys kind := by cases kind <;> exact List.not_mem_nil
  rw [hgrows.keys, or_iff_right hnil, false_or, hvisited]
  cases hdef : M.definition name with
  | none =>
    constructor
    · rintro ⟨g, hg, -⟩
      exact absurd hg List.not_mem_nil
    · rintro ⟨p, -, g, hp, hkey⟩
      exact absurd hkey (not_mem_directKeys_of_undefined hdef hp kind key)
  | some instructions =>
    rw [Option.isSome_some, if_pos rfl]
    constructor
    · -- What is marked is the end of a first entry.
      rintro ⟨g, hg, -, hkey⟩
      obtain ⟨p, hp, hwalk⟩ := (mem_depthSearch_iff hS g).mp hg
      exact ⟨p, hp, g, hwalk, hkey⟩
    · rintro ⟨p, hp, g, hwalk, hkey⟩
      exact ⟨g, (mem_depthSearch_iff hS g).mpr ⟨p, hp, hwalk⟩, List.not_mem_nil, hkey⟩

/-- The footprint of `collectFieldFootprint` is the union over the ends of the first entries. -/
theorem keys_collectFieldFootprint {depth : ℕ} {name : String} {S : Set (List ℕ)}
    (hS : FirstEntries M.directCalls depth name S) (kind : AccessKind) (key : SharedFieldKey) :
    key ∈ (M.collectFieldFootprint (depth + 1) name {}).keys kind ↔
      ∃ p ∈ S, ∃ g, walk M.directCalls name p = some g ∧ key ∈ M.directKeys kind g :=
  mem_keys_of_grows hS (grows_collectFieldFootprint _ _ _) (visited_collectFieldFootprint _ _ _)
    kind key

/-- So is the footprint of `collectTierFootprint`. -/
theorem keys_collectTierFootprint {depth : ℕ} {name : String} {S : Set (List ℕ)}
    (hS : FirstEntries M.directCalls depth name S) (kind : AccessKind) (key : SharedFieldKey) :
    key ∈ (M.collectTierFootprint (depth + 1) name {}).keys kind ↔
      ∃ p ∈ S, ∃ g, walk M.directCalls name p = some g ∧ key ∈ M.directKeys kind g :=
  mem_keys_of_grows hS (grows_collectTierFootprint _ _ _) (visited_collectTierFootprint _ _ _)
    kind key

/-- What a first entry accesses is accessed within the depth. -/
theorem touchedWithin_of_entry {depth : ℕ} {name : String} {S : Set (List ℕ)}
    (hS : FirstEntries M.directCalls depth name S) {kind : AccessKind} {key : SharedFieldKey}
    (h : ∃ p ∈ S, ∃ g, walk M.directCalls name p = some g ∧ key ∈ M.directKeys kind g) :
    M.TouchedWithin depth name kind key :=
  let ⟨p, hp, g, hwalk, hkey⟩ := h
  ⟨g, ⟨p, hS.length_le hp, hwalk⟩, hkey⟩

/-- Where the footprints are complete, the functions that the walk enters first touch every
field. -/
theorem entriesTouchAll_of_complete {depth : ℕ} {name : String}
    (h : M.FootprintsComplete depth name) : M.EntriesTouchAll depth name := by
  obtain ⟨S, hS⟩ := exists_firstEntries M.directCalls depth name
  refine ⟨S, hS, fun kind key htouched => ?_⟩
  exact (keys_collectFieldFootprint hS kind key).mp ((h.field kind key).mpr htouched)

/-- Where the functions that the walk enters first touch every field, the footprints are
complete. -/
theorem complete_of_entriesTouchAll {depth : ℕ} {name : String}
    (h : M.EntriesTouchAll depth name) : M.FootprintsComplete depth name := by
  obtain ⟨S, hS, hall⟩ := h
  constructor
  · intro kind key
    rw [keys_collectFieldFootprint hS]
    exact ⟨touchedWithin_of_entry hS, hall kind key⟩
  · intro kind key
    rw [keys_collectTierFootprint hS]
    exact ⟨touchedWithin_of_entry hS, hall kind key⟩

/-- The entries touch all fields whenever the first chain of calls to each function within the depth
is a shortest one. -/
theorem entriesTouchAll_of_shortest {depth : ℕ} {name : String}
    (hshort : ∀ p g, FirstWalk M.directCalls depth name p g →
      ∀ q, walk M.directCalls name q = some g → p.length ≤ q.length) :
    M.EntriesTouchAll depth name := by
  obtain ⟨S, hS⟩ := exists_firstEntries M.directCalls depth name
  refine ⟨S, hS, fun kind key ⟨g, hg, hkey⟩ => ?_⟩
  obtain ⟨p, hp, hwalk⟩ := hS.of_shortest hshort hg
  exact ⟨p, hp, g, hwalk, hkey⟩

/-! ### Shared data -/

/-- A function without a definition adds nothing. -/
theorem collectFieldFootprint_of_undefined {name : String} (hdef : M.definition name = none)
    (depth : ℕ) (fp : Footprint) : M.collectFieldFootprint depth name fp = fp := by
  cases depth with
  | zero => rfl
  | succ depth =>
    unfold collectFieldFootprint
    rw [hdef]

/-- The fields in conflict between two entries with a body. -/
theorem mem_getFieldsConflictingBetween {e1 e2 : String}
    (hdef : ¬((M.definition e1).isNone || (M.definition e2).isNone)) (key : SharedFieldKey) :
    key ∈ M.getFieldsConflictingBetween e1 e2 ↔
      let fp1 := M.collectFieldFootprint (conflictDepth + 1) e1 {}
      let fp2 := M.collectFieldFootprint (conflictDepth + 1) e2 {}
      key ∈ fp1.keys .write ∧ (key ∈ fp2.keys .write ∨ key ∈ fp2.keys .read) ∨
        key ∈ fp2.keys .write ∧ key ∈ fp1.keys .read := by
  unfold getFieldsConflictingBetween
  rw [if_neg hdef]
  simp only [List.mem_append, List.mem_filter, Bool.or_eq_true, Bool.and_eq_true,
    decide_eq_true_eq, Footprint.keys]
  constructor
  · rintro (hkey | ⟨hwrite, hread, -⟩)
    · exact .inl hkey
    · exact .inr ⟨hwrite, hread⟩
  · rintro (hkey | ⟨hwrite, hread⟩)
    · exact .inl hkey
    · -- A field that is in the list already is not added again.
      exact or_iff_not_imp_left.mpr fun hout => ⟨hwrite, hread, by simpa using hout⟩

/-- Two entries share data exactly if their footprints conflict. -/
theorem doEntriesHaveSharedData_eq (M : Module) (e1 e2 : String) :
    M.doEntriesHaveSharedData e1 e2 =
      (M.collectFieldFootprint (conflictDepth + 1) e1 {}).conflict
        (M.collectFieldFootprint (conflictDepth + 1) e2 {}) := by
  rw [Bool.eq_iff_iff, Footprint.conflict_iff, doEntriesHaveSharedData, Bool.not_eq_true',
    List.isEmpty_eq_false_iff_exists_mem]
  by_cases hdef : (M.definition e1).isNone || (M.definition e2).isNone
  · -- An entry without a body has an empty footprint.
    have hnil : M.getFieldsConflictingBetween e1 e2 = [] := by
      unfold getFieldsConflictingBetween
      rw [if_pos hdef]
    rw [hnil]
    constructor
    · rintro ⟨key, hkey⟩
      exact absurd hkey List.not_mem_nil
    · rintro ⟨key, hkey⟩
      rcases Bool.or_eq_true_iff.mp hdef with hdef | hdef
      · rw [collectFieldFootprint_of_undefined (Option.isNone_iff_eq_none.mp hdef)] at hkey
        simp [Footprint.keys] at hkey
      · have hnone : M.definition e2 = none := Option.isNone_iff_eq_none.mp hdef
        rw [collectFieldFootprint_of_undefined hnone] at hkey
        simp [Footprint.keys] at hkey
  · simp only [mem_getFieldsConflictingBetween hdef]

/-- Complete footprints show every conflict. -/
theorem doEntriesHaveSharedData_of_complete {e1 e2 : String}
    (h1 : M.FootprintsComplete conflictDepth e1) (h2 : M.FootprintsComplete conflictDepth e2)
    (hconflict : M.ConflictWithin conflictDepth e1 e2) :
    M.doEntriesHaveSharedData e1 e2 = true := by
  rw [doEntriesHaveSharedData_eq, Footprint.conflict_iff]
  simp only [h1.field, h2.field]
  exact hconflict

/-- Sharing data does not depend on the order of the entries. -/
theorem doEntriesHaveSharedData_comm (M : Module) (e1 e2 : String) :
    M.doEntriesHaveSharedData e1 e2 = M.doEntriesHaveSharedData e2 e1 := by
  rw [doEntriesHaveSharedData_eq, doEntriesHaveSharedData_eq, Bool.eq_iff_iff,
    Footprint.conflict_iff, Footprint.conflict_iff]
  apply exists_congr
  intro key
  tauto

/-- The footprints of a function are complete exactly if the functions that are entered by first
entries touch all fields, and two entries for which they do are not denied to share data if their
unions conflict. -/
theorem footprintsComplete_iff (M : Module) (depth : ℕ) (name : String) :
    (M.FootprintsComplete depth name ↔ M.EntriesTouchAll depth name) ∧
      ∀ e1 e2, M.EntriesTouchAll conflictDepth e1 → M.EntriesTouchAll conflictDepth e2 →
        M.ConflictWithin conflictDepth e1 e2 → M.doEntriesHaveSharedData e1 e2 = true := by
  constructor
  · exact ⟨entriesTouchAll_of_complete, complete_of_entriesTouchAll⟩
  · intro e1 e2 h1 h2
    exact doEntriesHaveSharedData_of_complete (complete_of_entriesTouchAll h1)
      (complete_of_entriesTouchAll h2)

/-! ### A function met first on a long chain -/

/-- The address of a global variable. -/
def sharedVariable : PointerValue where
  steps := []
  root := .global "shared"
  users := []

/-- An entry calls a helper both through another function and directly; the helper calls the one
function that writes the shared variable. The second entry reads it. -/
def calledTwice : Module where
  functions := [
    ⟨"submit", false, [.call "prepare", .call "commit"]⟩,
    ⟨"prepare", false, [.call "commit"]⟩,
    ⟨"commit", false, [.call "publish"]⟩,
    ⟨"publish", false, [.store sharedVariable]⟩,
    ⟨"poll", false, [.load sharedVariable]⟩]

/-- In `calledTwice` the entry `submit` writes the shared variable within the depth. -/
theorem calledTwice_write :
    calledTwice.TouchedWithin conflictDepth "submit" .write ⟨.global, "shared", 0⟩ :=
  ⟨"publish", ⟨[1, 0], by decide, by decide +kernel⟩, by decide +kernel⟩

/-- In `calledTwice` the entry `poll` reads it within the depth. -/
theorem calledTwice_read :
    calledTwice.TouchedWithin conflictDepth "poll" .read ⟨.global, "shared", 0⟩ :=
  ⟨"poll", ⟨[], by decide, rfl⟩, by decide +kernel⟩

/-- The writer is two calls away, but missing from the footprints, and sharing is denied. -/
theorem calledTwice_incomplete :
    ¬calledTwice.FootprintsComplete conflictDepth "submit" ∧
      calledTwice.ConflictWithin conflictDepth "submit" "poll" ∧
      calledTwice.doEntriesHaveSharedData "submit" "poll" = false := by
  refine ⟨fun hcomplete => ?_, ⟨_, .inl ⟨calledTwice_write, .inr calledTwice_read⟩⟩, ?_⟩
  · have hmem := (hcomplete.field .write _).mpr calledTwice_write
    revert hmem
    decide +kernel
  · decide +kernel

end Module

end Lace
