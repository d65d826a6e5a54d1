import Mathlib.Data.Fintype.Defs
import Mathlib.Data.Finset.Insert
import Lace.Surface.Basic
import Lace.ThreadTree.Basic

/-!
# Contract clauses

The object-anchored part of a contract, as the composition of phase B reads it: which clause of a
thread speaks about an object, what it requires, what it provides, and how severe it is when the
access of another thread meets a requirement.

## Main definitions

* `OrderClause`, `ConcurrencyContract`: the clauses of a thread;
* `clauseForObject`, `assumeAnchoredToObject`: the clause for an object;
* `mechanismClass`, `establishesHardNonLockOrder`: what a clause provides;
* `hazardTier`: the hazard of a requirement.

## Main results

* `tier_ne_low_of_hazardTier`: a hazard is never of the lowest tier.
-/

namespace Lace.PhaseB

/-- `OrderReq`: a local requirement. -/
structure OrderReq where
  /-- `relation`. -/
  relation : String
  deriving DecidableEq, Repr

/-- `SyncProv`: a synchronization effect. -/
structure SyncProv where
  /-- `relation`. -/
  relation : String
  /-- `detail`. -/
  detail : String
  deriving DecidableEq, Repr

/-- `OrderClause`: the fields that the composition reads. -/
structure OrderClause where
  /-- `resource`. -/
  resource : String
  /-- `objectId`: the primary anchor, -1 if there is none. -/
  objectId : ℤ
  /-- `objectIds`: the surface objects that the clause covers. -/
  objectIds : List ℤ
  /-- `assume`. -/
  assume : List OrderReq
  /-- `guarantee`. -/
  guarantee : List SyncProv
  deriving DecidableEq, Repr

/-- `ConcurrencyContract`: its object-anchored part. -/
structure ConcurrencyContract where
  /-- `clauses`. -/
  clauses : List OrderClause
  deriving DecidableEq, Repr

/-- The environment variables that the composition reads. A number is there if the whole variable
is one. -/
structure PhaseBEnv where
  /-- `LACE_ALLOW_FUZZY_CONTRACT_BINDING`. -/
  allowFuzzyContractBinding : Bool
  /-- `LACE_TRUST_HARD_NONLOCK_DISCHARGE`. -/
  trustHardNonLockDischarge : Bool
  /-- `LACE_NO_DETERMINISTIC_DISCHARGE`. -/
  noDeterministicDischarge : Bool
  /-- `LACE_KEEP_LOCKED_NULL_HAZARDS`. -/
  keepLockedNullHazards : Bool
  /-- `LACE_B2C_MAX_HIGH`. -/
  maxHigh : Option ℤ
  /-- `LACE_B2C_MAX_MED`. -/
  maxMed : Option ℤ
  /-- `LACE_B2C_MAX_LOW`. -/
  maxLow : Option ℤ
  /-- `LACE_B2C_MAX_TOTAL`. -/
  maxTotal : Option ℤ
  deriving DecidableEq, Repr

/-- `relUpper`. -/
def relUpper (s : String) : String := String.ofList (s.toList.map Char.toUpper)

/-- The loops with `std::tolower`. -/
def lower (s : String) : String := String.ofList (s.toList.map Char.toLower)

/-- `s.find(pat) != std::string::npos`: the text has the pattern in it. -/
def has (s pat : String) : Bool := (findStr s pat).isSome

/-- `clauseForObject`: the clause of a contract about an object, by its id or else by its name. -/
def clauseForObject (env : PhaseBEnv) (c : ConcurrencyContract) (oi : ℤ) (name : String) :
    Option OrderClause :=
  match c.clauses.find? fun cl => cl.objectIds.contains oi || cl.objectId = oi with
  | some cl => some cl
  | none =>
    if env.allowFuzzyContractBinding && 2 < name.utf8ByteSize then
      c.clauses.find? fun cl =>
        !(0 ≤ cl.objectId || !cl.objectIds.isEmpty || cl.resource.isEmpty) &&
          (has cl.resource name || has name cl.resource)
    else none

/-- `assumeAnchoredToObject`: the requirements of the clause are about this object. -/
def assumeAnchoredToObject (cl : OrderClause) (oi : ℤ) : Bool :=
  cl.objectId = oi || cl.objectId < 0 && cl.objectIds = [oi]

/-- `hasAssumeRel`: the thread relies on a relation of that kind. -/
def hasAssumeRel (cl : OrderClause) (rel : String) : Bool :=
  cl.assume.any fun a => relUpper a.relation = relUpper rel

/-- `hasAnyAssume`: the thread relies on something. -/
def hasAnyAssume (cl : OrderClause) : Bool := !cl.assume.isEmpty

/-- `establishesOrder`: the thread guarantees some order. -/
def establishesOrder (cl : OrderClause) : Bool :=
  cl.guarantee.any fun g =>
    relUpper g.relation ∈ ["ORDER", "EXCLUDE", "LINEARIZE", "WAIT", "SERIALIZE", "COUNTS"]

/-- `MechClass`: how much a mechanism that is named counts. -/
inductive MechClass
  | none | soft | hard
  deriving DecidableEq, Repr

/-- The words that make an `EXCLUDE` guarantee soft. -/
def softExcludeWords : List String := ["flag", "state bit", "bool"]

/-- The words that make an `ORDER` or `WAIT` guarantee hard. -/
def hardOrderWords : List String :=
  ["rcu", "synchronize", "call_rcu", "kfree_rcu", "barrier", "smp_", "store_release",
    "load_acquire", "acquire", "release", "flush_work", "flush_workqueue", "cancel_work",
    "cancel_delayed_work", "kthread_stop", "wait_for_completion", "del_timer_sync",
    "timer_delete_sync", "napi_disable", "drain", "join", "quiesce", "grace", "active_callbacks",
    "callbacks_empty", "readers_empty", "active_holders", "holders==0", "cmpxchg", "xchg",
    "refcount", "kref"]

/-- The words that make a `LINEARIZE` guarantee hard. -/
def hardLinearizeWords : List String :=
  ["refcount", "kref", "counts", "cmpxchg", "xchg", "atomic", "admission", "close"]

/-- `mechanismClass`: how much a guarantee counts, by the mechanism its text names. -/
def mechanismClass (g : SyncProv) : MechClass :=
  let d := lower (g.relation ++ " " ++ g.detail)
  let rel := relUpper g.relation
  if rel = "COUNTS" then .hard
  else if rel = "EXCLUDE" || rel = "SERIALIZE" then
    if softExcludeWords.any (has d) then .soft else .hard
  else if rel = "ORDER" || rel = "WAIT" then
    if hardOrderWords.any (has d) then .hard else .soft
  else if rel = "LINEARIZE" then
    if hardLinearizeWords.any (has d) then .hard else .soft
  else .none

/-- `establishesHardNonLockOrder`: the thread guarantees an order by more than a lock. -/
def establishesHardNonLockOrder (cl : OrderClause) : Bool :=
  cl.guarantee.any fun g =>
    relUpper g.relation = "COUNTS" ||
      relUpper g.relation ∈ ["ORDER", "WAIT", "LINEARIZE"] && mechanismClass g = .hard

/-- `AccKind`: what a thread does with an object. -/
structure AccKind where
  /-- It reads. -/
  read : Bool
  /-- It writes. -/
  write : Bool
  /-- It frees. -/
  free : Bool
  deriving DecidableEq, Repr

/-- The thread touches the object. -/
def AccKind.touch (k : AccKind) : Bool := k.read || k.write || k.free

/-- The thread changes or frees the object. -/
def AccKind.mutates (k : AccKind) : Bool := k.write || k.free

/-- The tiers of the candidates. -/
inductive Tier
  | low | medium | high
  deriving DecidableEq, Repr

instance : Fintype Tier := ⟨{.low, .medium, .high}, fun t => by cases t <;> decide⟩

/-- `tierRank`: tiers as numbers, the best one the greatest. -/
def tierRank : Tier → ℕ
  | .high => 2
  | .medium => 1
  | .low => 0

theorem tierRank_injective : Function.Injective tierRank := by
  intro t t' h
  cases t <;> cases t' <;> first | rfl | cases h

/-- A tier and the label of the hazard. -/
structure Hazard where
  /-- The tier. -/
  tier : Tier
  /-- The label. -/
  label : String
  deriving DecidableEq, Repr

/-- `hazardTier`: the strongest hazard of a requirement against the accesses of another thread;
`none` is the empty tier. -/
def hazardTier (req : Option OrderClause) (viol : AccKind) : Option Hazard :=
  req.bind fun req =>
    let stable := hasAssumeRel req "STABLE_DURING" || hasAssumeRel req "COUNT_GUARDED"
    let isolated := hasAssumeRel req "REGION_ISOLATED" || hasAssumeRel req "ATOMIC"
    let ordered := hasAssumeRel req "ORDER" || hasAssumeRel req "PREC"
    let mediated := hasAssumeRel req "CONFLICT_MEDIATED"
    if stable && viol.free then
      some ⟨.high, "STABLE_DURING violated by retire/free -> lifetime"⟩
    else if isolated && viol.mutates then
      some ⟨.high, "REGION_ISOLATED violated by conflicting event -> atomicity"⟩
    else if mediated && viol.mutates then
      some ⟨.medium, "CONFLICT_MEDIATED lacks covering synchronization"⟩
    else if ordered && viol.free then
      some ⟨.high, "ORDER violated by retire/free -> lifetime/order"⟩
    else if ordered && viol.write then
      some ⟨.medium, "ORDER violated by concurrent write"⟩
    else if hasAnyAssume req then
      some ⟨.medium, "local requirement met by conflicting access"⟩
    else none

theorem tier_ne_low_of_hazardTier {req : Option OrderClause} {viol : AccKind} {h : Hazard}
    (hh : hazardTier req viol = some h) : h.tier ≠ .low := by
  obtain ⟨cl, -, hcl⟩ := Option.bind_eq_some_iff.mp hh
  dsimp only at hcl
  split_ifs at hcl <;> cases hcl <;> decide

end Lace.PhaseB
