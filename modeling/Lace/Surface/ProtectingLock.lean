import Lace.CCPG.Contexts
import Lace.L2.NodeAccesses
import Lace.Library.Separated
import Lace.Query.Verifier

/-!
# The protecting lock of an access

`isNodeLockProtected` and `findProtectingLock` of the surface generator: an access counts as
protected if some lock is held in every context of its node, and its protecting lock is a text, the
source text of all locks held in any context. Three readers of the surface take equal texts for one
lock: `sameLockCovers`, `surfaceSharedLock` and the fallback of `eval_same_lock`.

## Main definitions

* `LockSurface`: what the generator reads;
* `LockSurface.isNodeLockProtected`, `LockSurface.findProtectingLock`: the two functions;
* `LockSurface.SameString`: two protected nodes with one non-empty text;
* `LockSurface.Describes`: the lock fields of an object are the generator's;
* `surfaceSharedLock`: the second reader.

## Main results

* `holdsText_iff_of_sameString`: equal texts say that the nodes hold equally spelled locks;
* `share_of_sameString`: when they say that any two contexts share a lock;
* `protectingLock_exclusion`: what the three readers can conclude.
-/

namespace Lace

open Library

/-- What the surface generator reads about locks. -/
structure LockSurface where
  /-- `ccpg_`. -/
  ccpg : CCPG
  /-- `getNodesByLoc` of the node's location. -/
  siblings : NodeId → List NodeId
  /-- The locks that `LSAnalysis` found held at a node. -/
  nodeLockSets : NodeId → List ℕ
  /-- The contexts of the node's function; none where it has no function. -/
  contextSet : NodeId → List Context
  /-- The addresses of the `Lock` objects. -/
  lockAddr : ℕ → ℕ
  /-- `Lock::getAcquire`. -/
  lockAcquire : ℕ → NodeId
  /-- `getCode` of the node's CPG node, where there is one. -/
  code : NodeId → Option String
  /-- The module behind the nodes. -/
  ir : IRModule

namespace LockSurface

variable (S : LockSurface)

/-- `LSAnalysis::getLockSet` of a node's location in a context: the locks of all nodes at the
location and of all sites of the call stack, in the order of their addresses and each once. -/
def lockSetAt (node : NodeId) (ctx : Context) : List ℕ :=
  (ctx.flatMap S.nodeLockSets ++ (S.siblings node).flatMap S.nodeLockSets).dedup.insertionSort
    fun i j => S.lockAddr i ≤ S.lockAddr j

/-- `isNodeLockProtected`: every context of the node holds a lock. -/
def isNodeLockProtected (node : NodeId) : Bool :=
  if (S.contextSet node).isEmpty then !(S.lockSetAt node []).isEmpty
  else (S.contextSet node).all fun ctx => !(S.lockSetAt node ctx).isEmpty

/-- The source text of a lock. -/
def lockText (l : ℕ) : Option String :=
  S.code (S.lockAcquire l)

/-- One more text at the end of the rendered ones. -/
def appendText (out code : String) : String :=
  (if out = "" then out else out ++ " & ") ++ code

/-- `formatLockSet`: the texts of the locks that have one. -/
def formatLockSet (locks : List ℕ) : String :=
  (locks.filterMap S.lockText).foldl appendText ""

/-- `unionLocks`: the locks held in any context, in the order in which they are found. -/
def unionLocks (node : NodeId) : List ℕ :=
  ((S.contextSet node).flatMap (S.lockSetAt node)).eraseDups

/-- `findProtectingLock`: the locks that an access is annotated with, over all contexts of its
function. -/
def findProtectingLock (node : NodeId) : String :=
  if (S.contextSet node).isEmpty then S.formatLockSet (S.lockSetAt node [])
  else S.formatLockSet (S.unionLocks node)

/-- The fields `is_lock_protected` and `protecting_lock` that `collectSharedObjects` writes. -/
def lockFields (node : NodeId) : Bool × String :=
  if (S.ccpg.getNodeByID node).isSome && S.isNodeLockProtected node then
    (true, S.findProtectingLock node)
  else (false, "")

/-- The lock fields of an object's accesses are the generator's. -/
def Describes (o : SharedObject) : Prop :=
  ∀ a ∈ o.accesses, (a.isLockProtected, a.protectingLock) = S.lockFields a.nodeId

instance (o : SharedObject) : Decidable (S.Describes o) :=
  inferInstanceAs (Decidable (∀ a ∈ o.accesses, _))

/-- `isLockAlias` of the acquires of two locks. -/
def lockAlias (l1 l2 : ℕ) : Bool :=
  S.ir.isLockAlias (S.lockAcquire l1) (S.lockAcquire l2)

/-- The contexts of a node; the empty one if its function has none. -/
def contexts (node : NodeId) : List Context :=
  if (S.contextSet node).isEmpty then [[]] else S.contextSet node

/-- Two protected nodes have the same non-empty text. -/
def SameString (n1 n2 : NodeId) : Prop :=
  S.isNodeLockProtected n1 = true ∧ S.isNodeLockProtected n2 = true ∧
    S.findProtectingLock n1 = S.findProtectingLock n2 ∧ S.findProtectingLock n1 ≠ ""

instance (n1 n2 : NodeId) : Decidable (S.SameString n1 n2) :=
  inferInstanceAs (Decidable (_ ∧ _))

/-- In a context of the node a lock with this text is held. -/
def HoldsTextIn (node : NodeId) (ctx : Context) (text : String) : Prop :=
  ∃ l ∈ S.lockSetAt node ctx, S.lockText l = some text

/-- In some context of the node a lock with this text is held. -/
def HoldsText (node : NodeId) (text : String) : Prop :=
  ∃ ctx ∈ S.contexts node, S.HoldsTextIn node ctx text

/-- The texts of the locks at a node do not run into the separator. -/
def TextsSeparable (node : NodeId) : Prop :=
  ∀ text, S.HoldsText node text → Separable " & ".toList text.toList

/-- What is held in some context of the node is held in all of them, up to the text. -/
def TextsEverywhere (node : NodeId) : Prop :=
  ∀ text, S.HoldsText node text → ∀ ctx ∈ S.contexts node, S.HoldsTextIn node ctx text

/-- Equally spelled locks of the two nodes alias. -/
def EqualTextsAlias (n1 n2 : NodeId) : Prop :=
  ∀ c1 ∈ S.contexts n1, ∀ l1 ∈ S.lockSetAt n1 c1, ∀ c2 ∈ S.contexts n2, ∀ l2 ∈ S.lockSetAt n2 c2,
    ∀ text, S.lockText l1 = some text → S.lockText l2 = some text → S.lockAlias l1 l2 = true

/-- The locksets of two contexts contain a pair of aliasing locks. -/
def Share (n1 n2 : NodeId) (c1 c2 : Context) : Prop :=
  ∃ l1 ∈ S.lockSetAt n1 c1, ∃ l2 ∈ S.lockSetAt n2 c2, S.lockAlias l1 l2 = true

instance (n1 n2 : NodeId) (c1 c2 : Context) : Decidable (S.Share n1 n2 c1 c2) :=
  inferInstanceAs (Decidable (∃ l1 ∈ _, _))

variable {S} {n n1 n2 : NodeId}

/-! ### The rendered text -/

/-- Appending text by text joins the texts. -/
theorem foldl_appendText {out : String} (hout : out ≠ "") (texts : List String) :
    texts.foldl appendText out = " & ".intercalate (out :: texts) := by
  induction texts generalizing out with
  | nil => exact String.intercalate_singleton.symm
  | cons t texts ih =>
    have happend : appendText out t = out ++ " & " ++ t := by rw [appendText, if_neg hout]
    have hne : out ++ " & " ++ t ≠ "" := by
      intro h
      have hlist := congrArg String.toList h
      simp at hlist
    rw [List.foldl_cons, happend, ih hne, String.intercalate_cons_append,
      String.intercalate_cons_cons]

/-- The texts that `findProtectingLock` renders. -/
def renderedTexts (S : LockSurface) (node : NodeId) : List String :=
  (if (S.contextSet node).isEmpty then S.lockSetAt node [] else S.unionLocks node).filterMap
    S.lockText

theorem findProtectingLock_eq :
    S.findProtectingLock n = (S.renderedTexts n).foldl appendText "" := by
  unfold findProtectingLock renderedTexts
  split <;> rfl

/-- They are the texts of the locks held in any context. -/
theorem mem_renderedTexts {text : String} : text ∈ S.renderedTexts n ↔ S.HoldsText n text := by
  unfold renderedTexts HoldsText HoldsTextIn contexts
  split
  · simp
  · simp only [unionLocks, List.mem_filterMap, List.mem_eraseDups, List.mem_flatMap]
    constructor
    · rintro ⟨l, ⟨ctx, hctx, hl⟩, htext⟩
      exact ⟨ctx, hctx, l, hl, htext⟩
    · rintro ⟨ctx, hctx, l, hl, htext⟩
      exact ⟨l, ⟨ctx, hctx, hl⟩, htext⟩

/-- Texts that are separable are rendered as their join. -/
theorem findProtectingLock_eq_intercalate (h : S.TextsSeparable n) :
    S.findProtectingLock n = " & ".intercalate (S.renderedTexts n) := by
  have hne : ∀ text ∈ S.renderedTexts n, text ≠ "" := by
    rintro text htext rfl
    exact (h _ (mem_renderedTexts.mp htext)).1 rfl
  rw [findProtectingLock_eq]
  cases htexts : S.renderedTexts n with
  | nil => exact String.intercalate_nil.symm
  | cons t texts =>
    have ht : t ≠ "" := hne t (by rw [htexts]; exact List.mem_cons_self)
    have hfirst : appendText "" t = t := by rw [appendText, if_pos rfl, String.empty_append]
    rw [List.foldl_cons, hfirst, foldl_appendText ht]

theorem separable_of_mem_renderedTexts (h : S.TextsSeparable n) {t : List Char}
    (ht : t ∈ (S.renderedTexts n).map String.toList) : Separable " & ".toList t := by
  obtain ⟨text, htext, rfl⟩ := List.mem_map.mp ht
  exact h text (mem_renderedTexts.mp htext)

/-- Equal texts come from equally spelled locks. -/
theorem holdsText_iff_of_sameString (h : S.SameString n1 n2) (hsep1 : S.TextsSeparable n1)
    (hsep2 : S.TextsSeparable n2) {text : String} : S.HoldsText n1 text ↔ S.HoldsText n2 text := by
  have hjoin : " & ".intercalate (S.renderedTexts n1) =
      " & ".intercalate (S.renderedTexts n2) := by
    rw [← findProtectingLock_eq_intercalate hsep1, ← findProtectingLock_eq_intercalate hsep2,
      h.2.2.1]
  have hmap : (S.renderedTexts n1).map String.toList = (S.renderedTexts n2).map String.toList := by
    refine intercalate_inj (by decide : " & ".toList ≠ []) ?_ ?_ ?_
    · exact fun t => separable_of_mem_renderedTexts hsep1
    · exact fun t => separable_of_mem_renderedTexts hsep2
    · rw [← String.toList_intercalate, ← String.toList_intercalate, hjoin]
  have hinj : Function.Injective String.toList := fun _ _ => String.toList_inj.mp
  rw [← mem_renderedTexts, ← mem_renderedTexts, hinj.list_map hmap]

/-- If besides the texts are the same in all contexts of one node and equally spelled locks alias,
equal texts say that any two contexts share a lock. -/
theorem share_of_sameString (h : S.SameString n1 n2) (hsep1 : S.TextsSeparable n1)
    (hsep2 : S.TextsSeparable n2) (heverywhere : S.TextsEverywhere n2)
    (halias : S.EqualTextsAlias n1 n2) {c1 c2 : Context} (hc1 : c1 ∈ S.contexts n1)
    {text : String} (htext : S.HoldsTextIn n1 c1 text) (hc2 : c2 ∈ S.contexts n2) :
    S.Share n1 n2 c1 c2 := by
  have hholds : S.HoldsText n2 text :=
    (holdsText_iff_of_sameString h hsep1 hsep2).mp ⟨c1, hc1, htext⟩
  obtain ⟨l1, hl1, htext1⟩ := htext
  obtain ⟨l2, hl2, htext2⟩ := heverywhere text hholds c2 hc2
  exact ⟨l1, hl1, l2, hl2, halias c1 hc1 l1 hl1 c2 hc2 l2 hl2 text htext1 htext2⟩

/-! ### The readers -/

/-- The lock of a described access that counts as locked is the one of its node. -/
theorem protected_of_locked {o : SharedObject} (hdesc : S.Describes o) {a : ThreadAccess}
    (ha : a ∈ o.accesses) (hlocked : a.locked = true) :
    S.isNodeLockProtected a.nodeId = true ∧ a.protectingLock = S.findProtectingLock a.nodeId ∧
      a.protectingLock ≠ "" := by
  have hfields := hdesc a ha
  obtain ⟨hprot, hne⟩ := Bool.and_eq_true_iff.mp hlocked
  unfold lockFields at hfields
  split at hfields
  · rename_i hnode
    refine ⟨(Bool.and_eq_true_iff.mp hnode).2, congrArg Prod.snd hfields, ?_⟩
    rintro hempty
    rw [hempty] at hne
    exact absurd hne (by decide)
  · have hfalse : a.isLockProtected = false := congrArg Prod.fst hfields
    rw [hfalse] at hprot
    exact Bool.noConfusion hprot

/-- Two described accesses that are locked with one text are at nodes with the same text. -/
theorem sameString_of_locked {o o' : SharedObject} (hdesc : S.Describes o)
    (hdesc' : S.Describes o') {a b : ThreadAccess} (ha : a ∈ o.accesses) (hb : b ∈ o'.accesses)
    (hal : a.locked = true) (hbl : b.locked = true) (heq : a.protectingLock = b.protectingLock) :
    S.SameString a.nodeId b.nodeId := by
  obtain ⟨hap, hastr, hane⟩ := protected_of_locked hdesc ha hal
  obtain ⟨hbp, hbstr, -⟩ := protected_of_locked hdesc' hb hbl
  exact ⟨hap, hbp, hastr.symm.trans (heq.trans hbstr), hastr ▸ hane⟩

end LockSurface

/-- `surfaceSharedLock`: every access of both threads is locked, and some lock text is common. -/
def surfaceSharedLock (o : SharedObject) (ta tb : Tid) : Bool :=
  let as := o.accesses.filter fun a => a.threadId = ta
  let bs := o.accesses.filter fun b => b.threadId = tb
  !as.isEmpty && !bs.isEmpty && as.all ThreadAccess.locked && bs.all ThreadAccess.locked &&
    as.any fun a => bs.any fun b => a.protectingLock = b.protectingLock

namespace LockSurface

variable {S : LockSurface} {o : SharedObject}

theorem sameString_of_sameLockCovers (hdesc : S.Describes o) {a b : NodeId}
    (h : sameLockCovers (some o) a b = true) : S.SameString a b := by
  obtain ⟨x, y, hx, hy, hxl, hyl, heq⟩ := SharedObject.sameLockCovers_iff.mp h
  obtain ⟨hxmem, rfl⟩ := SharedObject.lastAccess_eq_some_imp (List.Perm.refl _) hx
  obtain ⟨hymem, rfl⟩ := SharedObject.lastAccess_eq_some_imp (List.Perm.refl _) hy
  exact sameString_of_locked hdesc hdesc hxmem hymem hxl hyl heq

theorem sameString_of_surfaceSharedLock (hdesc : S.Describes o) {ta tb : Tid}
    (h : surfaceSharedLock o ta tb = true) :
    (∀ a ∈ o.accesses, a.threadId = ta ∨ a.threadId = tb →
      S.isNodeLockProtected a.nodeId = true) ∧
    ∃ a ∈ o.accesses, a.threadId = ta ∧ ∃ b ∈ o.accesses, b.threadId = tb ∧
      S.SameString a.nodeId b.nodeId := by
  simp only [surfaceSharedLock, Bool.and_eq_true, List.all_eq_true, List.any_eq_true,
    List.mem_filter, decide_eq_true_eq] at h
  obtain ⟨⟨⟨-, hallA⟩, hallB⟩, a, ⟨ha, hta⟩, b, ⟨hb, htb⟩, heq⟩ := h
  refine ⟨?_, a, ha, hta, b, hb, htb, ?_⟩
  · rintro x hx (hxa | hxb)
    · exact (protected_of_locked hdesc hx (hallA x ⟨hx, hxa⟩)).1
    · exact (protected_of_locked hdesc hx (hallB x ⟨hx, hxb⟩)).1
  · exact sameString_of_locked hdesc hdesc ha hb (hallA a ⟨ha, hta⟩) (hallB b ⟨hb, htb⟩) heq

/-- The lock that the fallback takes for a node is the text of the node. -/
theorem exists_of_surfaceLock {objects : List SharedObject} {n : NodeId} {lock : String}
    (h : HypothesisVerifier.surfaceLock objects n = some lock) :
    ∃ o ∈ objects, ∃ a ∈ o.accesses, a.nodeId = n ∧ a.locked = true ∧ a.protectingLock = lock := by
  obtain ⟨a, hfind, rfl⟩ := Option.map_eq_some_iff.mp h
  obtain ⟨o, ho, ha⟩ := List.mem_flatMap.mp (List.mem_of_find?_eq_some hfind)
  have hp := List.find?_some hfind
  simp only [Bool.and_eq_true, decide_eq_true_eq] at hp
  exact ⟨o, ho, a, ha, hp.1.1, Bool.and_eq_true_iff.mpr ⟨hp.1.2, hp.2⟩, rfl⟩

theorem sameString_of_surfaceSameLock {V : HypothesisVerifier} {objects : List SharedObject}
    (hsurface : V.surface = some objects) (hdesc : ∀ o ∈ objects, S.Describes o)
    {n1 n2 : NodeId} (h : V.surfaceSameLock n1 n2 = true) : S.SameString n1 n2 := by
  rw [HypothesisVerifier.surfaceSameLock, hsurface, Option.any_some] at h
  split at h
  · rename_i lock1 lock2 h1 h2
    obtain ⟨o, ho, a, ha, rfl, hal, rfl⟩ := exists_of_surfaceLock h1
    obtain ⟨o', ho', b, hb, rfl, hbl, rfl⟩ := exists_of_surfaceLock h2
    exact sameString_of_locked (hdesc o ho) (hdesc o' ho') ha hb hal hbl (by simpa using h)
  · exact Bool.noConfusion h

/-- What equal protecting locks say, and what their readers can conclude. Two protected nodes with
one non-empty text hold equally spelled locks, if no text runs into the separator. If moreover the
texts are the same in all contexts of the second node and equally spelled locks alias, every
context of the first node that holds a lock with a text shares a lock with every context of the
second. The readers answer yes only at nodes that are protected and have one non-empty text. -/
theorem protectingLock_exclusion (S : LockSurface) :
    (∀ n1 n2, S.SameString n1 n2 → S.TextsSeparable n1 → S.TextsSeparable n2 →
      (∀ text, S.HoldsText n1 text ↔ S.HoldsText n2 text) ∧
      (S.TextsEverywhere n2 → S.EqualTextsAlias n1 n2 →
        ∀ c1 ∈ S.contexts n1, (∃ text, S.HoldsTextIn n1 c1 text) →
          ∀ c2 ∈ S.contexts n2, S.Share n1 n2 c1 c2)) ∧
    (∀ o, S.Describes o → ∀ a b, sameLockCovers (some o) a b = true → S.SameString a b) ∧
    (∀ o, S.Describes o → ∀ ta tb, surfaceSharedLock o ta tb = true →
      (∀ a ∈ o.accesses, a.threadId = ta ∨ a.threadId = tb →
        S.isNodeLockProtected a.nodeId = true) ∧
      ∃ a ∈ o.accesses, a.threadId = ta ∧ ∃ b ∈ o.accesses, b.threadId = tb ∧
        S.SameString a.nodeId b.nodeId) ∧
    (∀ (V : HypothesisVerifier) (objects : List SharedObject), V.surface = some objects →
      (∀ o ∈ objects, S.Describes o) → ∀ n1 n2, V.surfaceSameLock n1 n2 = true →
        S.SameString n1 n2) := by
  refine ⟨fun n1 n2 h hsep1 hsep2 => ⟨fun text => ?_, ?_⟩, ?_, ?_, ?_⟩
  · exact holdsText_iff_of_sameString h hsep1 hsep2
  · rintro heverywhere halias c1 hc1 ⟨text, htext⟩ c2 hc2
    exact share_of_sameString h hsep1 hsep2 heverywhere halias hc1 htext hc2
  · exact fun o hdesc a b => sameString_of_sameLockCovers hdesc
  · exact fun o hdesc ta tb => sameString_of_surfaceSharedLock hdesc
  · exact fun V objects hsurface hdesc n1 n2 => sameString_of_surfaceSameLock hsurface hdesc

/-! ### Equal texts without a common lock -/

/-- Nodes 1 and 2, besides the call sites 8 and 9. A lock is acquired at the node with its number,
and two locks alias if they are the same. -/
def twoNodes (code : NodeId → String) (nodeLockSets : NodeId → List ℕ)
    (contextSet : NodeId → List Context) : LockSurface where
  ccpg := .ofNodes [1, 2] (fun _ => .dummy) fun _ => false
  siblings n := [n]
  nodeLockSets := nodeLockSets
  contextSet := contextSet
  lockAddr := id
  lockAcquire l := l
  code n := some (code n)
  ir :=
    { callInst := fun n => some ⟨none, [n.toNat]⟩
      cpgNodeName := fun _ => none
      areAliases := fun v w => v = w
      stripPointerCasts := id
      kind := fun _ => .other }

/-- Two devices, each with its own lock; both locks are spelled `mutex_lock(&dev->lock)`. -/
def sameSpelling : LockSurface :=
  twoNodes (fun _ => "mutex_lock(&dev->lock)") (fun n => if n = 1 then [11] else [12]) fun _ => []

/-- Node 1 is entered from two sites that hold different locks. -/
def otherContexts : LockSurface :=
  twoNodes (fun l => if l = 11 then "mutex_lock(&a)" else "mutex_lock(&b)")
    (fun n => if n = 8 then [11] else if n = 9 then [12] else []) fun _ => [[8], [9]]

/-- The text of the lock at node 1 is the join of the two texts at node 2. -/
def runningTexts : LockSurface :=
  twoNodes (fun l => if l = 11 then "x & y" else if l = 12 then "x" else "y")
    (fun n => if n = 1 then [11] else [12, 13]) fun _ => []

/-- Two writes by two threads at nodes 1 and 2 of `sameSpelling`. -/
def twoWrites : SharedObject where
  accesses :=
    [⟨1, .write, 1, "a->n = 0", true, "mutex_lock(&dev->lock)"⟩,
      ⟨2, .write, 2, "b->n = 0", true, "mutex_lock(&dev->lock)"⟩]
  isSelfRace := false
  accessingThreadIds := ⟨[1, 2], TidSet.sorted_one_two⟩

/-- Equal texts without a common lock: two locks with one spelling, which the readers take for one
lock; two contexts of one node; and a text that runs into the separator. -/
theorem sameString_not_share :
    (sameSpelling.SameString 1 2 ∧ ¬sameSpelling.Share 1 2 [] [] ∧
      sameSpelling.Describes twoWrites ∧ sameLockCovers (some twoWrites) 1 2 = true ∧
      surfaceSharedLock twoWrites 1 2 = true) ∧
    (otherContexts.SameString 1 1 ∧ [8] ∈ otherContexts.contexts 1 ∧
      [9] ∈ otherContexts.contexts 1 ∧ ¬otherContexts.Share 1 1 [8] [9]) ∧
    (runningTexts.SameString 1 2 ∧ ¬runningTexts.Share 1 2 [] []) := by
  decide +kernel

end LockSurface

end Lace
