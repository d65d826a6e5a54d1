import Mathlib.Data.Nat.Notation
import Lace.Library.Machine

/-!
# Memoised queries

A partial function whose answers are kept under a key. A query looks its key up first, so it may get
the answer to an earlier query with the same key; where the function is undefined the query fails.

## Main results

* `Memo.answer_eq`: a query whose value all queries with its key share is answered with this value
  after every history.
-/

namespace Lace.Library

/-- A memoised partial function from queries to answers. -/
structure Memo (ι κ β : Type*) where
  /-- The key under which an answer is kept. -/
  key : ι → κ
  /-- The function; undefined where the computation fails. -/
  compute : ι → Option β

namespace Memo

variable {ι κ β : Type*} [DecidableEq κ] (M : Memo ι κ β)

/-- One query: the answer and the cache afterwards. -/
def query (cache : List (κ × β)) (i : ι) : Option (β × List (κ × β)) :=
  match cache.lookup (M.key i) with
  -- A hit is answered without looking at the query, whatever was asked when it was stored.
  | some b => some (b, cache)
  | none => (M.compute i).map fun b => (b, (M.key i, b) :: cache)

/-- The cache after a query. -/
def step (cache : List (κ × β)) (i : ι) : Option (List (κ × β)) := (M.query cache i).map Prod.snd

/-- The answer to a query after a history of queries; undefined if one of them fails. -/
def answer (history : List ι) (i : ι) : Option β :=
  (runInputs M.step [] history).bind fun cache => (M.query cache i).map Prod.fst

/-- Everything cached is the value of a query with the key. -/
def Sound (cache : List (κ × β)) : Prop :=
  ∀ k b, cache.lookup k = some b → ∃ i, M.key i = k ∧ M.compute i = some b

variable {M} {cache cache' : List (κ × β)} {history : List ι} {i : ι}

theorem Sound.step (hsound : M.Sound cache) (hstep : M.step cache i = some cache') :
    M.Sound cache' := by
  unfold Memo.step query at hstep
  cases hlookup : cache.lookup (M.key i) with
  | some b =>
    rw [hlookup] at hstep
    cases hstep
    exact hsound
  | none =>
    rw [hlookup] at hstep
    cases hvalue : M.compute i with
    | none => simp [hvalue] at hstep
    | some b =>
      simp only [hvalue, Option.map_some, Option.some.injEq] at hstep
      subst hstep
      intro k b' hk
      rw [List.lookup_cons] at hk
      split at hk
      · -- The new entry; its key shadows an older one.
        rename_i heq
        cases hk
        exact ⟨i, (eq_of_beq heq).symm, hvalue⟩
      · exact hsound k b' hk

/-- The cache is sound after every history. -/
theorem Sound.run (hsound : M.Sound cache)
    (hrun : runInputs M.step cache history = some cache') : M.Sound cache' := by
  induction history generalizing cache with
  | nil =>
    cases hrun
    exact hsound
  | cons i history ih =>
    obtain ⟨mid, hmid, hrun⟩ := Option.bind_eq_some_iff.mp hrun
    exact ih (hsound.step hmid) hrun

theorem sound_nil (M : Memo ι κ β) : M.Sound [] := by
  intro k b hk
  cases hk

/-- A query whose value is shared by all queries with its key gets this value after every history
that goes through. -/
theorem answer_eq {v : β} (hshared : ∀ j, M.key j = M.key i → M.compute j = some v)
    (hrun : (runInputs M.step [] history).isSome) : M.answer history i = some v := by
  obtain ⟨cache, hcache⟩ := Option.isSome_iff_exists.mp hrun
  have hsound := (sound_nil M).run hcache
  rw [answer, hcache, Option.bind_some, query]
  cases hlookup : cache.lookup (M.key i) with
  | none => simp [hshared i rfl]
  | some b =>
    obtain ⟨j, hkey, hvalue⟩ := hsound _ _ hlookup
    rw [hshared j hkey] at hvalue
    exact hvalue.symm

end Memo

end Lace.Library
