import Mathlib.Data.List.Pairwise
import Lace.LockSet.MustLockset

/-!
# When the lockset does not depend on the heap layout

The worklist is ordered by the addresses of the nodes. Two orders can process a node with the
locks of different paths, and a predecessor that one of them processes before a node the other
may process after it. The locksets agree where all paths to a node hold the same locks and no
merge brings back a lock that the node has given back.

## Main definitions

* `LockProgram.Arrives`, `LockProgram.First`: what is held on arrival along a simple path;
* `LockProgram.OneReleaser`, `LockProgram.OrderFixed`: no lock is given back at two nodes, and
  the choice of a release does not depend on the order of a lockset;
* `LockProgram.SameArrivals`: the paths that reach a node hold the same locks;
* `LockProgram.OneEntry`: a node that gives back a lock has one predecessor to be entered from.

## Main results

* `arrival_first`: a run arrives at a node with what some simple path holds;
* `lockSetAt_perm`: under any two layouts the nodes have the same locks, up to order.
-/

namespace Lace.LockProgram

open Library
open Library.Traversal (before)

variable (P : LockProgram) (f : CCPGFunction)

/-! ### Conditions on a function -/

/-- Along a simple path through the nodes `via`, the last one first, `h` is held when `n` is
reached. -/
inductive Arrives : List NodeId → NodeId → List NodeId → Prop
  | entry : Arrives [] f.funcNode []
  | step {via : List NodeId} {m n : NodeId} {h : List NodeId} : Arrives via m h →
      m ∉ via → P.ccpg.OrderStep m n → Arrives (m :: via) n (P.post m h)

/-- `h` is held when some path reaches `n` for the first time. -/
def First (n : NodeId) (h : List NodeId) : Prop := ∃ via, P.Arrives f via n h ∧ n ∉ via

/-- `q` precedes `n` and can be reached without passing `n`. -/
def EntersFrom (n q : NodeId) : Prop :=
  P.ccpg.OrderStep q n ∧ n ≠ q ∧ ∃ via h, P.Arrives f via q h ∧ q ∉ via ∧ n ∉ via

/-- No lock is given back at two nodes. -/
def OneReleaser : Prop :=
  ∀ n n' h h' x, P.First f n h → P.First f n' h' → P.given n h = some x →
    P.given n' h' = some x → n = n'

/-- Every release of the function finds at most one held lock that it can give back. -/
def UniqueCandidate : Prop :=
  ∀ n h r, P.First f n h → P.op n = some (.release r) → ∀ x ∈ h, ∀ y ∈ h, P.GivesBack r x →
    P.GivesBack r y → x = y

/-- The order of a lockset, which an `ORDER` self-loop changes, does not matter. -/
def OrderFixed : Prop :=
  (∀ n h, P.First f n h → ¬P.ccpg.OrderStep n n) ∨ P.UniqueCandidate f

/-- The same locks: in the same order, or in any order where the function does not depend on
it. -/
def SameLocks (h h' : List NodeId) : Prop := h = h' ∨ P.UniqueCandidate f ∧ h.Perm h'

/-- All paths that reach a node for the first time hold the same locks there. -/
def SameArrivals : Prop := ∀ n h h', P.First f n h → P.First f n h' → P.SameLocks f h h'

/-- A node that gives back a lock can be entered from one predecessor only. -/
def OneEntry : Prop :=
  ∀ n h x p q, P.First f n h → P.given n h = some x → P.EntersFrom f n p → P.EntersFrom f n q →
    p = q

variable {P f} {A B : HeapLayout} {n m q x : NodeId} {h h' vis : List NodeId}

/-! ### The order of the held locks -/

theorem SameLocks.perm (hsame : P.SameLocks f h h') : h.Perm h' := by
  rcases hsame with rfl | ⟨-, hperm⟩
  · exact List.Perm.refl h
  · exact hperm

theorem SameLocks.symm (hsame : P.SameLocks f h h') : P.SameLocks f h' h :=
  hsame.imp Eq.symm fun ⟨hunique, hperm⟩ => ⟨hunique, hperm.symm⟩

theorem SameLocks.trans {h'' : List NodeId} (hsame : P.SameLocks f h h')
    (hsame' : P.SameLocks f h' h'') : P.SameLocks f h h'' := by
  rcases hsame with rfl | ⟨hunique, hperm⟩
  · exact hsame'
  · exact Or.inr ⟨hunique, hperm.trans hsame'.perm⟩

/-- A node gives back the same lock when it is processed with the same locks. -/
theorem SameLocks.given_eq (hsame : P.SameLocks f h h') (hfirst : P.First f n h) :
    P.given n h = P.given n h' := by
  rcases hsame with rfl | ⟨hunique, hperm⟩
  · rfl
  have hrev : h.reverse.Perm h'.reverse :=
    (List.reverse_perm h).trans (hperm.trans (List.reverse_perm h').symm)
  rw [given, given]
  split
  · rename_i r hop
    -- Both lists have the same locks, of which the release fits at most one.
    cases hfind : h.reverse.find? (P.GivesBack r) with
    | none =>
        rw [List.find?_eq_none] at hfind
        exact (List.find?_eq_none.mpr fun x hx => hfind x (hrev.mem_iff.mpr hx)).symm
    | some x =>
        have hx : x ∈ h := List.mem_reverse.mp (List.mem_of_find?_eq_some hfind)
        cases hfind' : h'.reverse.find? (P.GivesBack r) with
        | none =>
            rw [List.find?_eq_none] at hfind'
            exact absurd (List.find?_some hfind)
              (hfind' x (List.mem_reverse.mpr (hperm.mem_iff.mp hx)))
        | some y =>
            have hy : y ∈ h' := List.mem_reverse.mp (List.mem_of_find?_eq_some hfind')
            rw [hunique n h r hfirst hop x hx y (hperm.mem_iff.mpr hy) (List.find?_some hfind)
              (List.find?_some hfind')]
  · rfl

/-- A node leaves the same locks behind when it is processed with the same locks. -/
theorem SameLocks.post (hsame : P.SameLocks f h h') (hfirst : P.First f n h) :
    P.SameLocks f (P.post n h) (P.post n h') := by
  have hgiven := hsame.given_eq hfirst
  refine hsame.imp (congrArg (P.post n)) fun ⟨hunique, hperm⟩ => ⟨hunique, ?_⟩
  rw [LockProgram.post, LockProgram.post, hgiven]
  split_ifs
  · exact hperm.append_right [n]
  · cases P.given n h' with
    | none => exact hperm
    | some x => exact hperm.erase x

/-! ### Arrivals of a run -/

theorem Arrives.inside {via : List NodeId} (harr : P.Arrives f via n h) : P.Inside f n := by
  induction harr with
  | entry => exact Relation.ReflTransGen.refl
  | step _ _ hstep ih => exact ih.step hstep

/-- The locks held on arrival were acquired in the function. -/
theorem Arrives.inside_of_mem {via : List NodeId} (harr : P.Arrives f via n h) (hx : x ∈ h) :
    P.Inside f x := by
  induction harr with
  | entry => cases hx
  | step harr _ _ ih =>
      rcases mem_of_mem_post hx with hx | ⟨rfl, -⟩
      · exact ih hx
      · exact harr.inside

/-- Two functions have no node in common. -/
theorem Inside.function_eq {g : CCPGFunction} (hf : f ∈ P.functions) (hg : g ∈ P.functions)
    (hnf : P.Inside f n) (hng : P.Inside g n) : f = g := by
  by_contra hne
  have : Std.Symm fun f g : CCPGFunction => ∀ n, P.Inside f n → ¬P.Inside g n :=
    ⟨fun f g hfg n hg hf => hfg n hf hg⟩
  have hdisjoint : P.functions.Pairwise fun f g => ∀ n, P.Inside f n → ¬P.Inside g n := P.disjoint
  exact hdisjoint.forall hf hg hne n hnf hng

/-- A processed predecessor of a node belongs to the same function. -/
theorem inside_of_orderStep (hf : f ∈ P.functions) (hq : q ∈ P.order A)
    (hstep : P.ccpg.OrderStep q n) (hn : P.Inside f n) : P.Inside f q := by
  obtain ⟨g, hg, hqg⟩ := mem_order.mp hq
  rwa [Inside.function_eq hf hg hn (hqg.step hstep)]

/-- A run arrives at a node with what some simple path through processed nodes holds. -/
theorem arrives_of_processed (hf : f ∈ P.functions) (horder : P.OrderFixed f)
    (hvis : vis.Nodup) (hmem : vis ⊆ P.order A)
    (hcame : ∀ m ∈ vis, P.Inside f m → m = f.funcNode ∧
      (∀ q ∈ before vis m, ¬P.ccpg.OrderStep q m) ∨ ∃ q ∈ before vis m, P.ccpg.OrderStep q m)
    (hn : P.Inside f n) (hpred : ∃ q ∈ vis, P.ccpg.OrderStep q n) :
    ∃ via h, P.Arrives f via n h ∧ via ⊆ vis ∧ P.SameLocks f (P.arrival A vis n) h := by
  induction vis generalizing n with
  | nil =>
      obtain ⟨q, hq, -⟩ := hpred
      cases hq
  | cons m vis ih =>
      obtain ⟨hm, hvis⟩ := List.nodup_cons.mp hvis
      have hne : ∀ q ∈ vis, q ≠ m := fun q hq h => hm (h ▸ hq)
      have ih := @fun n => @ih n hvis (fun q hq => hmem (List.mem_cons_of_mem _ hq))
        fun q hq hin => by
          have := hcame q (List.mem_cons_of_mem _ hq) hin
          rwa [Traversal.before_cons_of_ne (hne q hq)] at this
      rw [arrival]
      by_cases hstep : P.ccpg.OrderStep m n
      · have hin : P.Inside f m := inside_of_orderStep hf (hmem List.mem_cons_self) hstep hn
        -- how the run came to `m`
        have harr : ∃ via h, P.Arrives f via m h ∧ via ⊆ vis ∧
            P.SameLocks f (P.arrival A vis m) h := by
          have hm' := hcame m List.mem_cons_self hin
          rw [Traversal.before_cons_self] at hm'
          rcases hm' with ⟨rfl, hnone⟩ | hpred
          · exact ⟨[], [], .entry, by simp, Or.inl (arrival_eq_nil hnone)⟩
          · exact ih m hin hpred
        obtain ⟨via, h, harr, hvia, hsame⟩ := harr
        have hmvia : m ∉ via := fun h => hm (hvia h)
        have hfirst : P.First f m h := ⟨via, harr, hmvia⟩
        rw [if_pos hstep]
        refine ⟨m :: via, P.post m h, harr.step hmvia hstep, List.cons_subset_cons m hvia, ?_⟩
        have hpost := (hsame.symm.post hfirst).symm
        rcases horder with hloop | hunique
        · -- without a self-loop the lockset is handed on as it is
          have hself : m ∉ (P.ccpg.orderSuccs m).reverse.dropWhile (· ≠ n) := fun hmem =>
            hloop m h hfirst (P.ccpg.mem_orderSuccs.mp
              (List.mem_reverse.mp ((List.dropWhile_suffix _).subset hmem)))
          rw [handed, if_neg hself]
          exact hpost
        · exact Or.inr ⟨hunique, perm_handed.trans hpost.perm⟩
      · rw [if_neg hstep]
        obtain ⟨q, hq, hqn⟩ := hpred
        have hqvis : q ∈ vis := by
          rcases List.mem_cons.mp hq with rfl | hq
          · exact absurd hqn hstep
          · exact hq
        obtain ⟨via, h, harr, hvia, hsame⟩ := ih n hn ⟨q, hqvis, hqn⟩
        exact ⟨via, h, harr, fun y hy => List.mem_cons_of_mem _ (hvia hy), hsame⟩

/-- A run arrives at a node with what some simple path through the nodes processed before it
holds. -/
theorem arrival_first (hf : f ∈ P.functions) (horder : P.OrderFixed f) (hn : P.Inside f n) :
    ∃ via h, P.Arrives f via n h ∧ via ⊆ before (P.order A) n ∧ n ∉ via ∧
      P.SameLocks f (P.arrival A (before (P.order A) n) n) h := by
  have hcame : ∀ m ∈ P.order A, P.Inside f m → m = f.funcNode ∧
      (∀ q ∈ before (P.order A) m, ¬P.ccpg.OrderStep q m) ∨
        ∃ q ∈ before (P.order A) m, P.ccpg.OrderStep q m := by
    intro m hm hin
    refine (order_visited hm).imp_left fun ⟨g, hg, hentry, hnone⟩ => ⟨?_, hnone⟩
    rw [hentry] at hin ⊢
    rw [Inside.function_eq hf hg hin Relation.ReflTransGen.refl]
  have hself : n ∉ before (P.order A) n := Traversal.not_mem_before_self nodup_order
  rcases hcame n (mem_order.mpr ⟨f, hf, hn⟩) hn with ⟨rfl, hnone⟩ | hpred
  · exact ⟨[], [], .entry, by simp, by simp, Or.inl (arrival_eq_nil hnone)⟩
  · obtain ⟨via, h, harr, hvia, hsame⟩ := @arrives_of_processed P f A n (before (P.order A) n) hf
      horder (Traversal.nodup_before nodup_order) Traversal.before_subset (fun m hm hin => by
        rw [Traversal.before_before hm nodup_order]
        exact hcame m (Traversal.before_subset hm) hin) hn hpred
    exact ⟨via, h, harr, hvia, fun h => hself (hvia h), hsame⟩

/-! ### Two runs -/

/-- A node is processed with the locks of some first arrival. -/
theorem exists_first (hf : f ∈ P.functions) (horder : P.OrderFixed f) (hn : P.Inside f n) :
    ∃ h, P.First f n h ∧ P.SameLocks f h (P.arrival A (before (P.order A) n) n) := by
  obtain ⟨via, h, harr, -, hnvia, hsame⟩ := arrival_first (A := A) hf horder hn
  exact ⟨h, ⟨via, harr, hnvia⟩, hsame.symm⟩

/-- What a node was entered with from an earlier predecessor is a first arrival. -/
theorem first_of_before (hf : f ∈ P.functions) (horder : P.OrderFixed f) (hn : P.Inside f n)
    (hstep : P.ccpg.OrderStep q n) (hq : q ∈ before (P.order A) n) :
    P.EntersFrom f n q ∧ ∃ h, P.First f n h ∧ P.SameLocks f h (P.heldAfter A (P.order A) q) := by
  have hin : P.Inside f q := inside_of_orderStep hf (Traversal.before_subset hq) hstep hn
  obtain ⟨via, h, harr, hvia, hqvia, hsame⟩ := arrival_first (A := A) hf horder hin
  have hnq : n ≠ q := by
    rintro rfl
    exact Traversal.not_mem_before_self nodup_order hq
  have hnvia : n ∉ via := fun h =>
    Traversal.not_mem_before_of_mem_before nodup_order hq (hvia h)
  refine ⟨⟨hstep, hnq, via, h, harr, hqvia, hnvia⟩, P.post q h, ?_, ?_⟩
  · refine ⟨q :: via, harr.step hqvia hstep, fun hmem => ?_⟩
    exact (List.mem_cons.mp hmem).elim hnq hnvia
  · exact hsame.symm.post ⟨via, harr, hqvia⟩

/-- A node that was entered from a predecessor is not the entry, or the entry was processed again:
some predecessor was processed before it. -/
theorem EntersFrom.exists_before (hf : f ∈ P.functions) (henter : P.EntersFrom f n q) :
    ∃ p ∈ before (P.order A) n, P.ccpg.OrderStep p n := by
  obtain ⟨hstep, hne, via, h, harr, -, hnvia⟩ := henter
  have hn : P.Inside f n := harr.inside.step hstep
  have hentry : n ≠ f.funcNode := by
    rintro rfl
    have hmem : ∀ {via n h}, P.Arrives f via n h → n = f.funcNode ∨ f.funcNode ∈ via := by
      intro via n h harr
      induction harr with
      | entry => exact Or.inl rfl
      | step _ _ _ ih =>
          refine Or.inr ?_
          rcases ih with rfl | ih
          · exact List.mem_cons_self
          · exact List.mem_cons_of_mem _ ih
    exact (hmem harr).elim (fun h => hne h.symm) hnvia
  rcases order_visited (mem_order.mpr ⟨f, hf, hn⟩) with ⟨g, hg, hroot, -⟩ | hpred
  · have hng : P.Inside g n := hroot ▸ Relation.ReflTransGen.refl
    rw [Inside.function_eq hf hg hn hng] at hentry
    exact absurd hroot hentry
  · exact hpred

/-- No run gives back a lock at two nodes. -/
theorem givenOnce_order (hone : ∀ f ∈ P.functions, P.OneReleaser f)
    (horder : ∀ f ∈ P.functions, P.OrderFixed f) : P.GivenOnce A (P.order A) := by
  intro n hn n' hn' x hx hx'
  obtain ⟨f, hf, hin⟩ := mem_order.mp hn
  obtain ⟨f', hf', hin'⟩ := mem_order.mp hn'
  obtain ⟨h, hfirst, hsame⟩ := exists_first (A := A) hf (horder f hf) hin
  obtain ⟨h', hfirst', hsame'⟩ := exists_first (A := A) hf' (horder f' hf') hin'
  rw [givenAt, ← hsame.given_eq hfirst] at hx
  rw [givenAt, ← hsame'.given_eq hfirst'] at hx'
  obtain rfl : f = f' := by
    obtain ⟨via, harr, -⟩ := hfirst
    obtain ⟨via', harr', -⟩ := hfirst'
    exact Inside.function_eq hf hf' (harr.inside_of_mem (mem_of_given hx))
      (harr'.inside_of_mem (mem_of_given hx'))
  exact hone f hf n n' h h' x hfirst hfirst' hx hx'

/-- A lock that one run collects at a node, the other run collects there too. -/
theorem Collects.of_run (hf : f ∈ P.functions) (horder : P.OrderFixed f)
    (harrivals : P.SameArrivals f) (hentry : P.OneEntry f) (hn : P.Inside f n)
    (hx : P.Collects A (P.order A) n x) : P.Collects B (P.order B) n x := by
  -- A node leaves the same locks in both runs, since the first arrivals agree.
  have hpost : ∀ m, P.Inside f m → x ∈ P.heldAfter A (P.order A) m →
      x ∈ P.heldAfter B (P.order B) m := by
    intro m hm hx
    obtain ⟨h, hfirst, hsame⟩ := exists_first (A := A) hf horder hm
    obtain ⟨h', hfirst', hsame'⟩ := exists_first (A := B) hf horder hm
    have hheld := (hsame.post hfirst).symm.trans
      (((harrivals m h h' hfirst hfirst').post hfirst).trans (hsame'.post hfirst'))
    exact hheld.perm.mem_iff.mp hx
  have hmem : n ∈ P.order B := mem_order.mpr ⟨f, hf, hn⟩
  obtain ⟨q, hq, rfl | ⟨hstep, hlate⟩, hx⟩ := hx
  · exact ⟨q, hmem, Or.inl rfl, hpost q hn hx⟩
  have hin : P.Inside f q := inside_of_orderStep hf hq hstep hn
  by_cases hlt : q ∈ before (P.order B) n
  · -- the other run processed `q` first, so `n` was processed with what `q` had left
    refine ⟨n, hmem, Or.inl rfl, ?_⟩
    obtain ⟨henter, h, hfirst, hsame⟩ := first_of_before hf horder hn hstep hlt
    obtain ⟨h', hfirst', hsame'⟩ := exists_first (A := B) hf horder hn
    have hxh : x ∈ h := hsame.perm.mem_iff.mpr (hpost q hin hx)
    have hpostn := ((harrivals n h h' hfirst hfirst').post hfirst).trans (hsame'.post hfirst')
    rcases mem_post_or_given (n := n) hxh with hkept | hgiven
    · exact hpostn.perm.mem_iff.mp hkept
    · -- then `q` is the only way into `n`, and the first run processed it first too
      obtain ⟨p, hp, hpstep⟩ := henter.exists_before (A := A) hf
      have hpenter := (first_of_before hf horder hn hpstep hp).1
      rw [hentry n h x p q hfirst hgiven hpenter henter] at hp
      exact absurd hp hlate
  · exact ⟨q, mem_order.mpr ⟨f, hf, hin⟩, Or.inr ⟨hstep, hlt⟩, hpost q hin hx⟩

/-- The acquire nodes of a lockset are those of the acquisitions it collects. -/
theorem Inv.perm_filterMap_acquireAt {r : List Lock × (NodeId → List ℕ)}
    (hinv : P.Inv A vis [] r.1 r.2) (hn : n ∈ vis) {xs : List NodeId} (hxs : xs.Nodup)
    (hmem : ∀ x, x ∈ xs ↔ P.Collects A vis n x) :
    (lockSetAt r n).Perm (xs.filterMap P.acquireAt) := by
  have hset : (r.2 n).Perm (xs.map (P.lockNo vis)) := by
    have hinj : (xs.map (P.lockNo vis)).Nodup := hxs.map_on fun x hx y hy =>
      lockNo_inj ((hmem x).mp hx).mem_acquired
    rw [List.perm_ext_iff_of_nodup (hinv.nodup n hn) hinj]
    intro i
    rw [hinv.settled n hn, List.mem_map]
    simp only [hmem]
  refine (hset.filterMap _).trans ?_
  rw [List.filterMap_map]
  refine List.Perm.of_eq (List.filterMap_congr fun x hx => ?_)
  obtain ⟨l, hl, hacq, -⟩ := hinv.locksAt.lock x ((hmem x).mp hx).mem_acquired
  simp [hl, hacq]

/-- Two runs under different heap layouts give every node the same locks. -/
theorem lockSetAt_perm (A B : HeapLayout) (hone : ∀ f ∈ P.functions, P.OneReleaser f)
    (horder : ∀ f ∈ P.functions, P.OrderFixed f) (hsame : ∀ f ∈ P.functions, P.SameArrivals f)
    (hentry : ∀ f ∈ P.functions, P.OneEntry f) (n : NodeId) :
    (lockSetAt (P.build A) n).Perm (lockSetAt (P.build B) n) := by
  have hinv : ∀ C : HeapLayout, P.Inv C (P.order C) [] (P.build C).1 (P.build C).2 := fun C =>
    outcome_build.resolve_right fun h => h.1 (givenOnce_order hone horder)
  by_cases hn : ∃ f ∈ P.functions, P.Inside f n
  · obtain ⟨f, hf, hin⟩ := hn
    -- Either run finds the locks that the other one finds.
    have hcollects : ∀ x, P.Collects A (P.order A) n x ↔ P.Collects B (P.order B) n x := fun x =>
      ⟨fun hx => hx.of_run hf (horder f hf) (hsame f hf) (hentry f hf) hin,
        fun hx => hx.of_run hf (horder f hf) (hsame f hf) (hentry f hf) hin⟩
    classical
    have hxs : ∀ x, x ∈ (P.acquired (P.order A)).filter (P.Collects A (P.order A) n ·) ↔
        P.Collects A (P.order A) n x := fun x => by
      rw [List.mem_filter, decide_eq_true_iff]
      exact and_iff_right_of_imp Collects.mem_acquired
    have hnodup : (P.acquired (P.order A)).Nodup := nodup_acquired nodup_order
    have hA := (hinv A).perm_filterMap_acquireAt (mem_order.mpr ⟨f, hf, hin⟩) (hnodup.filter _) hxs
    have hB := (hinv B).perm_filterMap_acquireAt (mem_order.mpr ⟨f, hf, hin⟩) (hnodup.filter _)
      fun x => (hxs x).trans (hcollects x)
    exact hA.trans hB.symm
  · -- The node is in no function, so neither run processes it.
    have hout : ∀ C : HeapLayout, n ∉ P.order C := fun C h => hn (mem_order.mp h)
    rw [lockSetAt, lockSetAt, build_sets_of_notMem (hout A), build_sets_of_notMem (hout B)]
    exact List.Perm.refl _

/-! ### A lock acquired on one branch -/

/-- Node 1 acquires on one branch, and node 3 is where it meets the branch over node 2. -/
def acquireOnBranch : LockProgram :=
  flatProgram (fun n => if n = 1 then .acquire else .otherCall)
    [(0, 1), (0, 2), (1, 3), (2, 3)] [0, 1, 2, 3] (by decide) (by decide)

/-- Node 2 lies before node 1 in memory. -/
def secondFirst : HeapLayout := ⟨fun n => if n = 2 then 0 else n.toNat + 1, id⟩

/-- The branch that is processed last decides what node 3 holds. -/
theorem acquireOnBranch_not_perm :
    ¬(lockSetAt (acquireOnBranch.build addressOrder) 3).Perm
      (lockSetAt (acquireOnBranch.build secondFirst) 3) := by
  decide

/-! ### A lock held around a branch

Node 1 acquires, nodes 3 and 4 are branches that meet in node 5, and node 6 releases. -/

/-- The graph of the example. -/
def aroundBranch : LockProgram :=
  flatProgram (fun n => if n = 1 then .acquire else if n = 6 then .release else .otherCall)
    [(0, 1), (1, 2), (2, 3), (2, 4), (3, 5), (4, 5), (5, 6), (6, 7)] [0, 1, 2, 3, 4, 5, 6, 7]
    (by decide) (by decide)

/-- The lock is held on arrival at nodes 2 to 6. -/
def aroundBranchHeld (n : NodeId) : List NodeId := if n ∈ [2, 3, 4, 5, 6] then [1] else []

/-- Where every `ORDER` edge agrees with a table of held locks, a path arrives with the table's
entry. -/
theorem Arrives.eq_of_table {held : NodeId → List NodeId} (hentry : held f.funcNode = [])
    (hedges : ∀ e ∈ P.ccpg.edges, e.type = .order → held e.dst = P.post e.src (held e.src))
    {via : List NodeId} (harr : P.Arrives f via n h) : h = held n := by
  induction harr with
  | entry => exact hentry.symm
  | step _ _ hstep ih => rw [ih, ← hedges _ hstep rfl]

section AroundBranch

variable (hf : f ∈ aroundBranch.functions)

include hf

theorem aroundBranch_first (hfirst : aroundBranch.First f n h) : h = aroundBranchHeld n := by
  obtain rfl := List.mem_singleton.mp hf
  obtain ⟨via, harr, -⟩ := hfirst
  exact harr.eq_of_table (by decide) (by decide)

/-- Node 6 is the only node that gives back a lock. -/
theorem aroundBranch_given (hfirst : aroundBranch.First f n h)
    (hgiven : aroundBranch.given n h = some x) : n = 6 := by
  have hall : ∀ m ∈ aroundBranch.ccpg.nodes, ∀ x ∈ aroundBranch.given m (aroundBranchHeld m),
      m = 6 := by decide
  rw [aroundBranch_first hf hfirst] at hgiven
  obtain rfl := List.mem_singleton.mp hf
  obtain ⟨via, harr, -⟩ := hfirst
  have hn : n ∈ aroundBranch.ccpg.nodes := by
    cases harr with
    | entry => decide
    | step _ _ hstep => exact (aroundBranch.ccpg.mem_nodes _ hstep).2
  exact hall n hn x hgiven

/-- Around the branch all conditions are met. -/
theorem aroundBranch_oneEntry : aroundBranch.OneEntry f := by
  intro n h x p q hfirst hgiven hp hq
  have hall : ∀ e ∈ aroundBranch.ccpg.edges, e.dst = 6 → e.src = 5 := by decide
  have hn : n = 6 := aroundBranch_given hf hfirst hgiven
  exact (hall _ hp.1 hn).trans (hall _ hq.1 hn).symm

end AroundBranch

/-- Around the branch both orders give the same locks. -/
theorem aroundBranch_perm :
    ¬(aroundBranch.build addressOrder).2 5 = [] ∧
      (lockSetAt (aroundBranch.build addressOrder) 5).Perm
        (lockSetAt (aroundBranch.build ⟨fun n => 7 - n.toNat, id⟩) 5) := by
  refine ⟨by decide, lockSetAt_perm addressOrder _ ?_ ?_ ?_ ?_ 5⟩ <;> intro f hf
  · intro n n' h h' x hfirst hfirst' hx hx'
    exact (aroundBranch_given hf hfirst hx).trans (aroundBranch_given hf hfirst' hx').symm
  · have hall : ∀ e ∈ aroundBranch.ccpg.edges, e.src ≠ e.dst := by decide
    exact Or.inl fun n _ _ hstep => hall _ hstep rfl
  · intro n h h' hfirst hfirst'
    exact Or.inl ((aroundBranch_first hf hfirst).trans (aroundBranch_first hf hfirst').symm)
  · exact aroundBranch_oneEntry hf

end Lace.LockProgram
