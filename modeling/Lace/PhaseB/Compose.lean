import Mathlib
import Lace.Library.Separated
import Lace.PhaseB.Clause
import Lace.Surface.ProtectingLock

/-!
# The candidates of phase B

The enumeration of `composeVerdict`: the pairs of threads of an object that may run in parallel and
conflict are discharged by the contracts, dropped as benign, or become a candidate with a tier, a
label and an anchor.

## Main definitions

* `AccessSite`, `SurfaceObject`: the accesses and objects of the surface, with their places;
* `ComposeInput`: what `composeVerdict` reads;
* `composePair`: what becomes of a pair of threads;
* `Reviewed`: the pair passes all filters;
* `key`: the object, the hazard class and the anchor of a candidate.

## Main results

* `mem_raw_iff`: the raw candidates are those of the reviewed pairs;
* `tier_candidate_eq_low_iff`: a pair is demoted to the lowest tier exactly if it has no hazard;
* `key_inj`: the key determines its three parts.
-/

namespace Lace.PhaseB

open Library

/-- `ThreadAccess`, with the fields that tell where it is. -/
structure AccessSite extends ThreadAccess where
  /-- `function_name`. -/
  functionName : String
  /-- `containing_function`, empty if it is not known. -/
  containingFunction : String
  /-- `location`. -/
  location : String
  deriving DecidableEq, Repr

/-- `SharedObject`, with the risk indicators that the composition reads. -/
structure SurfaceObject where
  /-- `name`. -/
  name : String
  /-- `accesses`. -/
  accesses : List AccessSite
  /-- `accessing_thread_ids`. -/
  accessingThreadIds : TidSet
  /-- `has_free_operation`. -/
  hasFreeOperation : Bool
  /-- `has_scalar_torn_access`. -/
  hasScalarTornAccess : Bool
  /-- `has_list_mutation`. -/
  hasListMutation : Bool
  /-- `is_self_race`. -/
  isSelfRace : Bool
  /-- `risk_score`. -/
  riskScore : ℤ
  deriving DecidableEq, Repr

namespace SurfaceObject

variable (O : SurfaceObject)

/-- The object without the places of its accesses. -/
def shared : SharedObject where
  accesses := O.accesses.map AccessSite.toThreadAccess
  isSelfRace := O.isSelfRace
  accessingThreadIds := O.accessingThreadIds

/-- The accesses of a thread. -/
def accessesOf (tid : Tid) : List AccessSite := O.accesses.filter fun a => a.threadId = tid

/-- `threadAccessKind`: what a thread does with an object. -/
def threadAccessKind (tid : Tid) : AccKind where
  read := (O.accessesOf tid).any fun a => a.accessType = .read
  write := (O.accessesOf tid).any fun a => a.accessType = .write
  free := (O.accessesOf tid).any fun a => a.accessType = .free

/-- `nullStateHazard`: the object is set to null somewhere and used through somewhere. -/
def nullStateHazard : Bool :=
  (O.accesses.any fun a => a.accessType = .write &&
    (has (lower a.codeSnippet) "= null" || has (lower a.codeSnippet) "= nullptr")) &&
  O.accesses.any fun a => a.accessType = .read &&
    (has a.codeSnippet "->" || has (lower a.codeSnippet) "deref")

/-- The access is of the kind that is looked for: a free, a write, or a read if neither. -/
def matchesKind (k : AccKind) (a : AccessSite) : Bool :=
  k.free && a.accessType = .free || k.write && a.accessType = .write ||
    !k.free && !k.write && a.accessType = .read

/-- `representativeAccess`: the access that stands for a thread: one of the right kind, or its
first. -/
def representativeAccess (tid : Tid) (k : AccKind) : Option AccessSite :=
  (O.accessesOf tid).find? (matchesKind k) <|> (O.accessesOf tid).head?

/-- `escapingViolatorAccess`: an access of the thread without a lock, a mutation if there is one. -/
def escapingViolatorAccess (tid : Tid) (k : AccKind) : Option AccessSite :=
  let unprotected := (O.accessesOf tid).filter fun a => !a.locked
  unprotected.find? (fun a => a.accessType = .write || a.accessType = .free) <|>
    unprotected.find? (fun a => !(a.accessType = .write || a.accessType = .free)) <|>
    O.representativeAccess tid k

/-- The lambda `mutationFor`: the free of a thread, or else its write. -/
def mutationFor (tid : Tid) (k : AccKind) : Option AccessSite :=
  let want : AccKind := { read := false, write := !k.free && k.write, free := k.free }
  if want.mutates then O.representativeAccess tid want else none

/-- `mutatingAnchor`: the access that a verdict is anchored at, a mutation if there is one. -/
def mutatingAnchor (reqT : Tid) (reqK : AccKind) (violT : Tid) (violK : AccKind) :
    Option AccessSite :=
  O.mutationFor violT violK <|> O.mutationFor reqT reqK <|> O.representativeAccess violT violK

/-- `suppressible`: a torn scalar that is neither freed, nor in a list, nor racing with itself. -/
def suppressible : Bool :=
  O.hasScalarTornAccess && !O.hasFreeOperation && !O.hasListMutation && !O.isSelfRace

end SurfaceObject

/-- The two threads both touch the object, and one of them changes it. -/
def conflict (k1 k2 : AccKind) : Bool := k1.touch && k2.touch && (k1.mutates || k2.mutates)

/-- `PhaseBCandidate`: what a pair of threads comes to, before candidates are merged. -/
structure PhaseBCandidate where
  /-- `objectId`. -/
  objectId : ℤ
  /-- `object`. -/
  object : ObjectRef
  /-- `tier`. -/
  tier : Tier
  /-- `label`. -/
  label : String
  /-- `reqT`: the thread that requires. -/
  reqT : Tid
  /-- `violT`: the thread that violates. -/
  violT : Tid
  /-- `reqKind`. -/
  reqKind : AccKind
  /-- `violKind`. -/
  violKind : AccKind
  /-- `reqClause`. -/
  reqClause : Option OrderClause
  /-- `violClause`. -/
  violClause : Option OrderClause
  /-- `violAccess`. -/
  violAccess : Option AccessSite
  /-- `anchor`. -/
  anchor : Option AccessSite
  /-- `merged`: how many candidates it stands for. -/
  merged : ℕ := 1
  deriving DecidableEq

/-- `phaseBHazardClass`. -/
def phaseBHazardClass (label : String) : String :=
  let s := lower label
  if has s "use_after_free" || has s "free" || has s "lifetime" then "lifetime"
  else if has s "refcount" || has s "count_guarded" || has s "double" then "refcount"
  else if has s "prec" || has s "order" then "ordering"
  else if has s "atomic" || has s "data_race" || has s "raw conflict" then "atomicity"
  else "other"

/-- The text of `access_type`. -/
def accessTypeText : AccessType → String
  | .read => "Read"
  | .write => "Write"
  | .free => "Free"

/-- `anchorKey`: the text that tells two anchors apart: the node, or the place in the source. -/
def anchorKey : Option AccessSite → String
  | none => "none"
  | some a =>
    if 0 ≤ a.nodeId then "n" ++ toString a.nodeId
    else
      (if a.containingFunction.isEmpty then a.functionName else a.containingFunction) ++ "@" ++
        a.location ++ "|" ++ accessTypeText a.accessType

/-- The key under which candidates are merged. -/
def PhaseBCandidate.key (c : PhaseBCandidate) : String :=
  toString c.objectId ++ "|" ++ phaseBHazardClass c.label ++ "|" ++ anchorKey c.anchor

/-- What `composeVerdict` reads. The environment variables are those it asks for itself. -/
structure ComposeInput where
  /-- `tct`. -/
  tct : ThreadCreationTree
  /-- What the parallelism test reads, with the entries of manual entry mode. -/
  filters : EntryFilters
  /-- `threadById`; a synthetic id has no thread. -/
  threadById : Tid → Option ThreadId
  /-- `contractsByTid`. -/
  contractsByTid : Tid → Option ConcurrencyContract
  /-- The object behind a pointer. -/
  object : ObjectRef → SurfaceObject
  /-- `objIndex`. -/
  objIndex : ObjectRef → Option ℤ
  /-- `objs`; a null pointer is `none`. -/
  objs : List (Option ObjectRef)
  /-- `keepLow`. -/
  keepLow : Bool
  /-- The environment variables. -/
  env : PhaseBEnv

/-- What becomes of a pair of threads. -/
inductive PairOutcome
  /-- The threads do not run in parallel or do not conflict. -/
  | skipped
  /-- The contracts serialize the pair. -/
  | discharged
  /-- The pair is dropped as benign. -/
  | suppressed
  /-- The pair is a candidate. -/
  | candidate (c : PhaseBCandidate)
  deriving DecidableEq

/-- The pairs of a list, each in the order of the list. -/
def pairs : List Tid → List (Tid × Tid)
  | [] => []
  | t :: ts => ts.map (fun u => (t, u)) ++ pairs ts

/-- The threads of a set are paired once, the smaller one first. -/
theorem mem_pairs_iff {l : List Tid} (hl : l.Pairwise (· < ·)) {t1 t2 : Tid} :
    (t1, t2) ∈ pairs l ↔ t1 ∈ l ∧ t2 ∈ l ∧ t1 < t2 := by
  induction l with
  | nil => simp [pairs]
  | cons t l ih =>
    obtain ⟨ht, hl⟩ := List.pairwise_cons.mp hl
    rw [pairs, List.mem_append, ih hl, List.mem_map]
    constructor
    · rintro (⟨u, hu, heq⟩ | ⟨h1, h2, hlt⟩)
      · cases heq
        exact ⟨by simp, by simp [hu], ht _ hu⟩
      · exact ⟨by simp [h1], by simp [h2], hlt⟩
    · rintro ⟨h1, h2, hlt⟩
      rcases List.mem_cons.mp h1 with rfl | hmem1
      · rcases List.mem_cons.mp h2 with rfl | hmem2
        · exact absurd hlt (lt_irrefl _)
        · exact Or.inl ⟨t2, hmem2, rfl⟩
      · rcases List.mem_cons.mp h2 with rfl | hmem2
        · exact absurd hlt (ht _ hmem1).not_gt
        · exact Or.inr ⟨hmem1, hmem2, hlt⟩

namespace ComposeInput

variable (X : ComposeInput)

/-- `manualentry::enabled`. -/
def manualEntry : Bool := X.filters.manualEntry.isSome

/-- The object of a pair with its index, and the two threads. -/
structure Pair where
  /-- The object. -/
  object : ObjectRef
  /-- Its index. -/
  oi : ℤ
  /-- The first thread. -/
  t1 : Tid
  /-- The second thread. -/
  t2 : Tid
  deriving DecidableEq

variable (p : Pair)

/-- `selfRace`: the two are instances of one thread. -/
def selfRace : Bool :=
  (X.object p.object).isSelfRace && p.t1.tmod 1000000 = p.t2.tmod 1000000

/-- The MHP gate: two threads with objects of their own must be able to run in parallel. For two
threads that are not siblings this is what the test computes with its assertion switched off. -/
def mhpGate : Bool :=
  X.selfRace p ||
    match X.threadById p.t1, X.threadById p.t2 with
    | some T1, some T2 => X.tct.mayHappenInParallel X.filters T1 T2
    | _, _ => true

/-- What a thread does with the object of the pair. -/
def kind (t : Tid) : AccKind := (X.object p.object).threadAccessKind t

/-- The clause of a thread for the object of the pair. -/
def clause (t : Tid) : Option OrderClause :=
  (X.contractsByTid t).bind fun c => clauseForObject X.env c p.oi (X.object p.object).name

/-- `semanticNullHazard`: a null state that stays a hazard under a lock, where the user asks for
it. -/
def semanticNullHazard : Bool :=
  X.env.keepLockedNullHazards && (X.object p.object).nullStateHazard

/-- `lockDischarge`: both threads hold one lock, and a contract names the order. -/
def lockDischarge : Bool :=
  !((X.kind p p.t1).free || (X.kind p p.t2).free) && !X.semanticNullHazard p &&
    surfaceSharedLock (X.object p.object).shared p.t1 p.t2 &&
    ((X.clause p p.t1).any establishesOrder || (X.clause p p.t2).any establishesOrder)

/-- `hardDischarge`: a contract names a concrete mechanism that is not a lock. -/
def hardDischarge : Bool :=
  (X.clause p p.t1).any establishesHardNonLockOrder ||
    (X.clause p p.t2).any establishesHardNonLockOrder

/-- The pair is discharged deterministically. -/
def dischargedPair : Bool :=
  let keepUnverifiedHard :=
    X.hardDischarge p && !X.env.trustHardNonLockDischarge && !X.lockDischarge p
  !X.env.noDeterministicDischarge &&
    (X.lockDischarge p || X.hardDischarge p && !keepUnverifiedHard)

/-- `reqA` and `reqB`: the clause of a thread, if its requirements are about the object. -/
def requirement (t : Tid) : Option OrderClause :=
  (X.clause p t).filter fun cl => assumeAnchoredToObject cl p.oi

/-- `hA` and `hB`: the hazard of the requirements of `t` against the accesses of `u`. -/
def hazard (t u : Tid) : Option Hazard :=
  if X.semanticNullHazard p &&
      (X.requirement p t).any (fun req => hasAssumeRel req "STABLE_DURING") &&
      (X.kind p u).write then
    some ⟨.high, "STABLE_DURING violated by NULL-state invalidation"⟩
  else hazardTier (X.requirement p t) (X.kind p u)

/-- The hazard that is reported, with the thread that requires and the one that violates. -/
def reported : Option (Hazard × Tid × Tid) :=
  match X.hazard p p.t1 p.t2, X.hazard p p.t2 p.t1 with
  | some hA, none => some (hA, p.t1, p.t2)
  | some hA, some hB =>
    if tierRank hB.tier ≤ tierRank hA.tier then some (hA, p.t1, p.t2) else some (hB, p.t2, p.t1)
  | none, hB => hB.map fun h => (h, p.t2, p.t1)

/-- The hazard of a pair without a stated requirement. -/
def rawConflict : Hazard := ⟨.low, "raw conflict (no stated order requirement)"⟩

/-- The candidate of a pair: its hazard, or the raw conflict. -/
def candidate : PhaseBCandidate :=
  let (h, reqT, violT) := (X.reported p).getD (rawConflict, p.t1, p.t2)
  { objectId := p.oi
    object := p.object
    tier := h.tier
    label := h.label
    reqT := reqT
    violT := violT
    reqKind := X.kind p reqT
    violKind := X.kind p violT
    reqClause := X.clause p reqT
    violClause := X.clause p violT
    violAccess := (X.object p.object).escapingViolatorAccess violT (X.kind p violT)
    anchor := (X.object p.object).mutatingAnchor reqT (X.kind p reqT) violT (X.kind p violT) }

/-- The pair is dropped: a torn scalar without a requirement, in automatic mode. -/
def suppressedPair : Bool :=
  (X.reported p).isNone && (X.object p.object).suppressible && !X.keepLow && !X.manualEntry

/-- The body of the loop over the pairs. -/
def composePair : PairOutcome :=
  if !X.mhpGate p then .skipped
  else if !conflict (X.kind p p.t1) (X.kind p p.t2) then .skipped
  else if X.dischargedPair p then .discharged
  else if X.suppressedPair p then .suppressed
  else .candidate (X.candidate p)

/-- The pairs of the loops, object by object. -/
def allPairs : List Pair :=
  X.objs.flatMap fun ptr =>
    match ptr with
    | none => []
    | some O =>
      match X.objIndex O with
      | none => []
      | some oi =>
        (pairs (X.object O).accessingThreadIds.toList).map fun tt => ⟨O, oi, tt.1, tt.2⟩

/-- `raw`: the candidates of the enumeration. -/
def raw : List PhaseBCandidate :=
  X.allPairs.filterMap fun p =>
    match X.composePair p with
    | .candidate c => some c
    | _ => none

/-- `dis`: how many pairs are discharged. -/
def dis : ℕ := X.allPairs.countP fun p => X.composePair p = .discharged

/-- The pair belongs to an object of the list, and its threads access it. -/
structure IsPair : Prop where
  /-- The object is in the list. -/
  mem : some p.object ∈ X.objs
  /-- It has the index. -/
  index : X.objIndex p.object = some p.oi
  /-- The first thread accesses it. -/
  mem1 : p.t1 ∈ (X.object p.object).accessingThreadIds.toList
  /-- The second thread accesses it. -/
  mem2 : p.t2 ∈ (X.object p.object).accessingThreadIds.toList
  /-- The two are not the same; the smaller one is first. -/
  lt : p.t1 < p.t2

/-- A pair that the composition owes a review: it passes the MHP gate, conflicts, is not discharged
and is not one of the torn scalars that automatic mode drops. -/
structure Reviewed : Prop extends X.IsPair p where
  /-- It passes the gate. -/
  gate : X.mhpGate p = true
  /-- It conflicts. -/
  conflicts : conflict (X.kind p p.t1) (X.kind p p.t2) = true
  /-- It is not discharged. -/
  not_discharged : X.dischargedPair p = false
  /-- It is not dropped. -/
  not_suppressed : X.suppressedPair p = false

variable {X p} {c : PhaseBCandidate}

theorem mem_allPairs_iff : p ∈ X.allPairs ↔ X.IsPair p := by
  rw [allPairs, List.mem_flatMap]
  constructor
  · rintro ⟨ptr, hptr, hp⟩
    cases ptr with
    | none => simp at hp
    | some O =>
      cases hoi : X.objIndex O with
      | none => simp [hoi] at hp
      | some oi =>
        simp only [hoi, List.mem_map] at hp
        obtain ⟨tt, htt, rfl⟩ := hp
        obtain ⟨h1, h2, hlt⟩ := (mem_pairs_iff (X.object O).accessingThreadIds.sorted).mp htt
        exact ⟨hptr, hoi, h1, h2, hlt⟩
  · intro h
    refine ⟨some p.object, h.mem, ?_⟩
    simp only [h.index, List.mem_map]
    exact ⟨(p.t1, p.t2), (mem_pairs_iff (TidSet.sorted _)).mpr ⟨h.mem1, h.mem2, h.lt⟩, rfl⟩

theorem composePair_eq_candidate_iff (hp : X.IsPair p) :
    X.composePair p = .candidate c ↔ X.Reviewed p ∧ X.candidate p = c := by
  unfold composePair
  constructor
  · -- the filters in the order of the loop body: gate, conflict, discharge, suppression
    intro h
    split at h
    next => cases h
    next hgate =>
      split at h
      next => cases h
      next hconf =>
        split at h
        next => cases h
        next hdis =>
          split at h
          next => cases h
          next hsup =>
            refine ⟨⟨hp, ?_, ?_, ?_, ?_⟩, PairOutcome.candidate.inj h⟩
            · simpa using hgate
            · simpa using hconf
            · simpa using hdis
            · simpa using hsup
  · rintro ⟨hrev, rfl⟩
    simp [hrev.gate, hrev.conflicts, hrev.not_discharged, hrev.not_suppressed]

/-- The enumeration makes exactly the candidates of the reviewed pairs. -/
theorem mem_raw_iff : c ∈ X.raw ↔ ∃ p, X.Reviewed p ∧ X.candidate p = c := by
  rw [raw, List.mem_filterMap]
  constructor
  · rintro ⟨p, hp, hc⟩
    cases hout : X.composePair p with
    | candidate c' =>
      rw [hout] at hc
      exact ⟨p, Option.some.inj hc ▸
        (composePair_eq_candidate_iff (mem_allPairs_iff.mp hp)).mp hout⟩
    | skipped => simp [hout] at hc
    | discharged => simp [hout] at hc
    | suppressed => simp [hout] at hc
  · rintro ⟨p, hrev, hc⟩
    have hout := (composePair_eq_candidate_iff hrev.toIsPair).mpr ⟨hrev, hc⟩
    exact ⟨p, mem_allPairs_iff.mpr hrev.toIsPair, by rw [hout]⟩

theorem tier_ne_low_of_hazard {t u : Tid} {h : Hazard} (hh : X.hazard p t u = some h) :
    h.tier ≠ .low := by
  unfold hazard at hh
  split at hh
  next => exact Option.some.inj hh ▸ by decide
  next => exact tier_ne_low_of_hazardTier hh

theorem tier_ne_low_of_reported {r : Hazard × Tid × Tid} (hr : X.reported p = some r) :
    r.1.tier ≠ .low := by
  unfold reported at hr
  split at hr
  next hA _ => exact Option.some.inj hr ▸ tier_ne_low_of_hazard hA
  next hA hB =>
    split at hr
    next => exact Option.some.inj hr ▸ tier_ne_low_of_hazard hA
    next => exact Option.some.inj hr ▸ tier_ne_low_of_hazard hB
  next =>
    obtain ⟨h, hB, rfl⟩ := Option.map_eq_some_iff.mp hr
    exact tier_ne_low_of_hazard hB

/-- A pair is demoted to the lowest tier exactly if it has no hazard. -/
theorem tier_candidate_eq_low_iff : (X.candidate p).tier = .low ↔ X.reported p = none := by
  cases hr : X.reported p with
  | none => simp [candidate, hr, rawConflict]
  | some r => simpa [candidate, hr] using tier_ne_low_of_reported hr

end ComposeInput

/-! ### The key -/

theorem bar_not_mem_toList_repr (z : ℤ) : '|' ∉ (toString z).toList := by
  have hnat : ∀ n : ℕ, '|' ∉ n.repr.toList := fun n hmem => by
    rw [Nat.toList_repr] at hmem
    simpa using Nat.isDigit_of_mem_toDigits (by decide) (by decide) hmem
  rw [Int.toString_eq_repr, Int.repr_eq_if]
  split
  · exact hnat _
  · simpa using hnat _

theorem toList_toString_ne_nil (z : ℤ) : (toString z).toList ≠ [] := by
  rw [Int.toString_eq_repr, Int.repr_eq_if]
  split <;> simp

/-- The hazard class is one of five words. -/
theorem phaseBHazardClass_mem (label : String) :
    phaseBHazardClass label ∈ ["lifetime", "refcount", "ordering", "atomicity", "other"] := by
  unfold phaseBHazardClass
  dsimp only
  split_ifs <;> simp

theorem separable_hazardClass (label : String) :
    Separable ['|'] (phaseBHazardClass label).toList := by
  have hall : ∀ w ∈ ["lifetime", "refcount", "ordering", "atomicity", "other"],
      Separable ['|'] w.toList := by decide +kernel
  exact hall _ (phaseBHazardClass_mem label)

/-- The key determines the object, the hazard class and the anchor. -/
theorem key_inj {c c' : PhaseBCandidate} : c.key = c'.key ↔
    c.objectId = c'.objectId ∧ phaseBHazardClass c.label = phaseBHazardClass c'.label ∧
      anchorKey c.anchor = anchorKey c'.anchor := by
  constructor
  · intro h
    have hchars := congrArg String.toList h
    simp only [PhaseBCandidate.key, String.toList_append, List.append_assoc] at hchars
    have hid : ∀ z : ℤ, Separable ['|'] (toString z).toList := fun z =>
      separable_singleton_iff.mpr ⟨toList_toString_ne_nil z, bar_not_mem_toList_repr z⟩
    -- Neither the number nor the class runs into the separator.
    obtain ⟨hoi, hrest⟩ := append_sep_inj (List.cons_ne_nil _ _) (hid _) (hid _) hchars
    obtain ⟨hclass, hanchor⟩ := append_sep_inj (List.cons_ne_nil _ _) (separable_hazardClass _)
      (separable_hazardClass _) hrest
    refine ⟨?_, String.toList_injective hclass, String.toList_injective hanchor⟩
    exact Int.repr_injective (String.toList_injective hoi)
  · rintro ⟨hoi, hclass, hanchor⟩
    rw [PhaseBCandidate.key, PhaseBCandidate.key, hoi, hclass, hanchor]

end Lace.PhaseB
