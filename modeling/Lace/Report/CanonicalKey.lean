import Lace.LLM.Interleaving
import Lace.PhaseB.Compose

/-!
# The canonical key of a hypothesis

Hypotheses with the same canonical key are reported as one. The key is made of the hazard class and,
unless the level is exact, of the surface object and the mutation among the nodes of the hypothesis.
The roles of the nodes do not occur in it; but where several nodes are mutations of the same kind,
the first one in the order of the roles is taken.

## Main definitions

* `hazardClass`, `canonicalKey`: the functions of the source;
* `RoleIndependent`: the key is the same under all renamings of the roles;
* `Leading`: a node is a mutation, and none of the nodes is a stronger one.

## Main results

* `roleIndependent_level_iff`: at which level the key depends on the roles;
* `roleIndependent_iff`: when it depends on them at no level.
-/

namespace Lace.Report

open Library LLM PhaseB

/-! ### The key -/

/-- `hazardClass`: the kind of bug, as far as duplicates go. -/
def hazardClass (bugCategory : String) : String :=
  let s := lower bugCategory
  if ["refcount", "double_free", "double free", "reference count"].any (has s) then "refcount"
  else if ["uaf", "use-after", "use after", "null", "lifetime", "teardown", "unbind", "release",
      "dangling", "stale", "free"].any (has s) then "lifetime"
  else if ["publish", "uninitialized", "ordering", "order ", "init-before", "before "].any
      (has s) then "ordering"
  else if ["atomic", "data_race", "data race", "race", "torn", "rmw", "lost", "inconsist"].any
      (has s) then "atomicity"
  else "other"

/-- `DedupLevel`: how coarse the keys are by which duplicates are found. -/
inductive DedupLevel
  | exact | anchor | objectClass
  deriving DecidableEq, Repr

/-- The accesses of the surface that have a node, each with the index of its object. -/
def surfaceSites (objects : List SurfaceObject) : List (ℕ × AccessSite) :=
  (objects.zipIdx.flatMap fun p => p.1.accesses.map fun a => (p.2, a)).filter fun s =>
    0 ≤ s.2.nodeId

/-- The first access at a node: `emplace` keeps what is there. -/
def siteOf (objects : List SurfaceObject) (n : NodeId) : Option (ℕ × AccessSite) :=
  (surfaceSites objects).find? fun s => s.2.nodeId = n

/-- `nodeToObj`: the object that a node touches, where it touches one. -/
def nodeToObj (objects : List SurfaceObject) (n : NodeId) : Option ℤ :=
  (siteOf objects n).map fun s => (s.1 : ℤ)

/-- `nodeToKind`: what a node does with its object. -/
def nodeToKind (objects : List SurfaceObject) (n : NodeId) : Option AccessType :=
  (siteOf objects n).map fun s => s.2.accessType

/-- `r`: a free before a write; a read is no mutation. -/
def mutationRank : AccessType → ℤ
  | .free => 2
  | .write => 1
  | .read => -1

/-- What the loop over the nodes has found. -/
structure KeyState where
  /-- `nodeIds`. -/
  nodeIds : List NodeId := []
  /-- `anchor`. -/
  anchor : NodeId := -1
  /-- `anchorRank`. -/
  anchorRank : ℤ := -1
  /-- `primaryObj`. -/
  primaryObj : ℤ := 2147483647
  /-- `anyObj`. -/
  anyObj : Bool := false

variable (objects : List SurfaceObject)

/-- One turn of the loop over the nodes. -/
def keyTurn (st : KeyState) (nid : NodeId) : KeyState :=
  let st : KeyState := { st with nodeIds := st.nodeIds ++ [nid] }
  let st : KeyState :=
    match nodeToObj objects nid with
    | some o => { st with anyObj := true, primaryObj := min st.primaryObj o }
    | none => st
  match nodeToKind objects nid with
  | some kind =>
    if st.anchorRank < mutationRank kind then
      { st with anchorRank := mutationRank kind, anchor := nid }
    else st
  | none => st

/-- The loop over the nodes. -/
def keyLoop (ids : List NodeId) : KeyState := ids.foldl (keyTurn objects) {}

/-- The key, from what the loop has found. -/
def keyOf (cls : String) (level : DedupLevel) (st : KeyState) : String :=
  let primaryObj :=
    if 0 ≤ st.anchor then (nodeToObj objects st.anchor).getD st.primaryObj else st.primaryObj
  if level = .objectClass && st.anyObj then cls ++ "|obj" ++ toString primaryObj
  else if level = .anchor && 0 ≤ st.anchor && st.anyObj then
    cls ++ "|obj" ++ toString primaryObj ++ "|a" ++ toString st.anchor
  else
    cls ++ "|nset:" ++
      String.join ((st.nodeIds.insertionSort (· ≤ ·)).map fun n => toString n ++ ",")

/-- The order in which a loop over the map of the nodes comes to them. -/
def inRoleOrder (nodes : List Site) : List Site :=
  nodes.insertionSort (Order.Preimage Prod.fst (· ≤ ·))

/-- The nodes in the order of their roles. -/
def roleIds (nodes : List Site) : List NodeId := (inRoleOrder nodes).map Prod.snd

/-- `canonicalKey`: the key by which two hypotheses count as one. -/
def canonicalKey (level : DedupLevel) (h : RaceHypothesis) : String :=
  keyOf objects (hazardClass h.bugCategory) level (keyLoop objects (roleIds h.nodes))

/-! ### Renamings of the roles -/

/-- A hypothesis whose nodes are a map: each role is bound once. -/
structure MappedHypothesis extends RaceHypothesis where
  /-- No role is bound twice. -/
  nodup_roles : (nodes.map Prod.fst).Nodup

/-- The hypothesis with other names for its roles. -/
def rename (σ : String → String) (h : RaceHypothesis) : RaceHypothesis :=
  { h with nodes := h.nodes.map fun s => (σ s.1, s.2) }

/-- The key is the same under every renaming that keeps the roles apart. -/
def RoleIndependent (level : DedupLevel) (h : MappedHypothesis) : Prop :=
  ∀ σ : String → String, Set.InjOn σ {r | r ∈ h.nodes.map Prod.fst} →
    canonicalKey objects level (rename σ h.toRaceHypothesis) =
      canonicalKey objects level h.toRaceHypothesis

/-- The rank of the access at a node. -/
def rank (n : NodeId) : ℤ := ((nodeToKind objects n).map mutationRank).getD (-1)

/-- The node is a mutation, and none of the nodes is a stronger one. -/
structure Leading (ids : List NodeId) (n : NodeId) : Prop where
  /-- It is one of them. -/
  mem : n ∈ ids
  /-- It is a mutation. -/
  rank_pos : -1 < rank objects n
  /-- None is stronger. -/
  rank_le : ∀ m ∈ ids, rank objects m ≤ rank objects n

/-- What the key takes from the leading nodes is the same for all of them. -/
def OneLeading (ids : List NodeId) : DedupLevel → Prop
  | .exact => True
  | .anchor => ∀ m n, Leading objects ids m → Leading objects ids n → m = n
  | .objectClass => ∀ m n, Leading objects ids m → Leading objects ids n →
      nodeToObj objects m = nodeToObj objects n

variable {objects} {ids ids' : List NodeId} {m n : NodeId} {level : DedupLevel} {cls : String}
  {nodes : List Site}

/-! ### What the loop finds -/

/-- The part of the turn that finds the anchor. -/
def anchorTurn (objects : List SurfaceObject) (p : NodeId × ℤ) (n : NodeId) : NodeId × ℤ :=
  if p.2 < rank objects n then (n, rank objects n) else p

/-- The part of the turn that finds the least object. -/
def objTurn (objects : List SurfaceObject) (o : ℤ) (n : NodeId) : ℤ :=
  match nodeToObj objects n with
  | some o' => min o o'
  | none => o

/-- The anchor and its rank after the loop. -/
def anchorOf (objects : List SurfaceObject) (ids : List NodeId) : NodeId × ℤ :=
  ids.foldl (anchorTurn objects) (-1, -1)

/-- The four parts of the loop do not read each other. -/
theorem foldl_keyTurn (st : KeyState) (hrank : -1 ≤ st.anchorRank) :
    ids.foldl (keyTurn objects) st =
      { nodeIds := st.nodeIds ++ ids
        anchor := (ids.foldl (anchorTurn objects) (st.anchor, st.anchorRank)).1
        anchorRank := (ids.foldl (anchorTurn objects) (st.anchor, st.anchorRank)).2
        primaryObj := ids.foldl (objTurn objects) st.primaryObj
        anyObj := st.anyObj || ids.any fun n => (nodeToObj objects n).isSome } := by
  induction ids generalizing st with
  | nil => simp
  | cons n ids ih =>
    have hturn : keyTurn objects st n =
        { nodeIds := st.nodeIds ++ [n]
          anchor := (anchorTurn objects (st.anchor, st.anchorRank) n).1
          anchorRank := (anchorTurn objects (st.anchor, st.anchorRank) n).2
          primaryObj := objTurn objects st.primaryObj n
          anyObj := st.anyObj || (nodeToObj objects n).isSome } := by
      have hnone : ¬st.anchorRank < -1 := not_lt.mpr hrank
      -- Object and kind of a node come from the same access.
      unfold keyTurn anchorTurn objTurn rank nodeToObj nodeToKind
      cases siteOf objects n with
      | none => simp [hnone]
      | some s => by_cases hlt : st.anchorRank < mutationRank s.2.accessType <;> simp [hlt]
    -- The rank of the anchor never falls, so a node off the surface is never one.
    have hrank' : -1 ≤ (anchorTurn objects (st.anchor, st.anchorRank) n).2 := by
      unfold anchorTurn
      split_ifs with hlt
      · exact hrank.trans hlt.le
      · exact hrank
    rw [List.foldl_cons, hturn, ih _ hrank']
    simp [Bool.or_assoc]

theorem keyLoop_eq (ids : List NodeId) : keyLoop objects ids =
    { nodeIds := ids
      anchor := (anchorOf objects ids).1
      anchorRank := (anchorOf objects ids).2
      primaryObj := ids.foldl (objTurn objects) 2147483647
      anyObj := ids.any fun n => (nodeToObj objects n).isSome } := by
  rw [keyLoop, foldl_keyTurn _ (le_refl (-1 : ℤ))]
  simp [anchorOf]

variable (objects) in
/-- The anchor is the one before the loop, or a node of higher rank; no node has a higher rank
than it. -/
theorem anchorTurn_spec (p : NodeId × ℤ) (ids : List NodeId) :
    p.2 ≤ (ids.foldl (anchorTurn objects) p).2 ∧
      (∀ n ∈ ids, rank objects n ≤ (ids.foldl (anchorTurn objects) p).2) ∧
      (ids.foldl (anchorTurn objects) p = p ∨ (ids.foldl (anchorTurn objects) p).1 ∈ ids ∧
        rank objects (ids.foldl (anchorTurn objects) p).1 =
          (ids.foldl (anchorTurn objects) p).2 ∧ p.2 < (ids.foldl (anchorTurn objects) p).2) := by
  induction ids generalizing p with
  | nil => simp
  | cons n ids ih =>
    rw [List.foldl_cons]
    obtain ⟨hle, hall, hcases⟩ := ih (anchorTurn objects p n)
    by_cases hlt : p.2 < rank objects n
    · -- The node becomes the anchor, until a stronger one is met.
      have hturn : anchorTurn objects p n = (n, rank objects n) := if_pos hlt
      rw [hturn] at hle hall hcases ⊢
      refine ⟨hlt.le.trans hle, List.forall_mem_cons.mpr ⟨hle, hall⟩, Or.inr ?_⟩
      obtain heq | ⟨hmem, hrank, hgt⟩ := hcases
      · rw [heq]
        exact ⟨List.mem_cons_self, rfl, hlt⟩
      · exact ⟨List.mem_cons_of_mem _ hmem, hrank, hlt.trans hgt⟩
    · -- A node of the same rank does not replace the anchor: the first one stays.
      have hturn : anchorTurn objects p n = p := if_neg hlt
      rw [hturn] at hle hall hcases ⊢
      refine ⟨hle, List.forall_mem_cons.mpr ⟨(not_lt.mp hlt).trans hle, hall⟩, ?_⟩
      exact hcases.imp_right fun h => ⟨List.mem_cons_of_mem _ h.1, h.2⟩

variable (objects) in
/-- The anchor is a leading node, if there is a mutation; otherwise there is none. -/
theorem anchorOf_cases (ids : List NodeId) :
    Leading objects ids (anchorOf objects ids).1 ∨
      (anchorOf objects ids).1 = -1 ∧ ∀ n, ¬Leading objects ids n := by
  obtain ⟨-, hall, heq | ⟨hmem, hrank, hgt⟩⟩ := anchorTurn_spec objects (-1, -1) ids
  · refine Or.inr ⟨by rw [anchorOf, heq], fun n hn => ?_⟩
    -- No node has a rank above that of no mutation.
    rw [heq] at hall
    exact absurd hn.rank_pos (not_lt.mpr (hall n hn.mem))
  · exact Or.inl ⟨hmem, hrank.symm ▸ hgt, fun n hn => hrank.symm ▸ hall n hn⟩

/-- A leading node that comes first is the anchor. -/
theorem anchorOf_cons (h : Leading objects (n :: ids) n) : (anchorOf objects (n :: ids)).1 = n := by
  have hturn : anchorTurn objects (-1, -1) n = (n, rank objects n) := if_pos h.rank_pos
  rw [anchorOf, List.foldl_cons, hturn]
  obtain ⟨-, -, heq | ⟨hmem, hrank, hgt⟩⟩ := anchorTurn_spec objects
    (n, rank objects n) ids
  · rw [heq]
  · exact absurd (hrank ▸ h.rank_le _ (List.mem_cons_of_mem _ hmem)) (not_le.mpr hgt)

/-- A leading node is on the surface. -/
theorem Leading.exists_obj (h : Leading objects ids n) :
    0 ≤ n ∧ ∃ o, nodeToObj objects n = some o := by
  have hpos := h.rank_pos
  unfold rank nodeToKind at hpos
  cases hsite : siteOf objects n with
  | none =>
    rw [hsite] at hpos
    exact absurd hpos (lt_irrefl _)
  | some s =>
    have hmem := List.mem_of_find?_eq_some hsite
    have hid : s.2.nodeId = n := by simpa using List.find?_some hsite
    have hnonneg : 0 ≤ s.2.nodeId := by simpa using (List.mem_filter.mp hmem).2
    exact ⟨hid ▸ hnonneg, s.1, by rw [nodeToObj, hsite]; rfl⟩

theorem Leading.perm (hperm : ids.Perm ids') (h : Leading objects ids n) :
    Leading objects ids' n :=
  ⟨hperm.mem_iff.mp h.mem, h.rank_pos, fun m hm => h.rank_le m (hperm.mem_iff.mpr hm)⟩

/-! ### The key of a list of nodes -/

/-- The text of the nodes does not depend on their order. -/
theorem insertionSort_eq_of_perm (hperm : ids.Perm ids') :
    ids.insertionSort (· ≤ ·) = ids'.insertionSort (· ≤ ·) :=
  have hsorted : (ids.insertionSort (· ≤ ·)).Perm (ids'.insertionSort (· ≤ ·)) :=
    (List.perm_insertionSort _ ids).trans (hperm.trans (List.perm_insertionSort _ ids').symm)
  hsorted.eq_of_pairwise' (List.pairwise_insertionSort _ ids) (List.pairwise_insertionSort _ ids')

/-- The least object does not depend on the order. -/
theorem foldl_objTurn_perm (hperm : ids.Perm ids') (o : ℤ) :
    ids.foldl (objTurn objects) o = ids'.foldl (objTurn objects) o := by
  refine hperm.foldl_eq' (fun x _ y _ z => ?_) o
  unfold objTurn
  cases nodeToObj objects x <;> cases nodeToObj objects y <;> simp [min_right_comm]

theorem any_isSome_of_leading (h : Leading objects ids n) :
    (ids.any fun n => (nodeToObj objects n).isSome) = true := by
  obtain ⟨-, o, ho⟩ := h.exists_obj
  exact List.any_eq_true.mpr ⟨n, h.mem, by rw [ho]; rfl⟩

/-- The key at the level of anchors, with an anchor. -/
theorem keyOf_anchor {o : ℤ} (hlead : Leading objects ids (anchorOf objects ids).1)
    (ho : nodeToObj objects (anchorOf objects ids).1 = some o) :
    keyOf objects cls .anchor (keyLoop objects ids) =
      cls ++ "|obj" ++ toString o ++ "|a" ++ toString (anchorOf objects ids).1 := by
  rw [keyLoop_eq, keyOf]
  simp [hlead.exists_obj.1, any_isSome_of_leading hlead, ho]

/-- The key at the level of objects, with an anchor. -/
theorem keyOf_objectClass {o : ℤ} (hlead : Leading objects ids (anchorOf objects ids).1)
    (ho : nodeToObj objects (anchorOf objects ids).1 = some o) :
    keyOf objects cls .objectClass (keyLoop objects ids) = cls ++ "|obj" ++ toString o := by
  rw [keyLoop_eq, keyOf]
  simp [hlead.exists_obj.1, any_isSome_of_leading hlead, ho]

/-- The key is the same in every order of the nodes, where the leading ones agree. -/
theorem keyOf_perm (hperm : ids.Perm ids') (hone : OneLeading objects ids level) :
    keyOf objects cls level (keyLoop objects ids) =
      keyOf objects cls level (keyLoop objects ids') := by
  have hany : (ids.any fun n => (nodeToObj objects n).isSome) =
      ids'.any fun n => (nodeToObj objects n).isSome := hperm.any_eq
  obtain hlead | ⟨hanchor, hno⟩ := anchorOf_cases objects ids
  · obtain hlead' | ⟨-, hno'⟩ := anchorOf_cases objects ids'
    · obtain ⟨-, o, ho⟩ := hlead.exists_obj
      obtain ⟨-, o', ho'⟩ := hlead'.exists_obj
      cases level with
      | exact => simp [keyLoop_eq, keyOf, insertionSort_eq_of_perm hperm]
      | anchor =>
        have heq := hone _ _ hlead (hlead'.perm hperm.symm)
        rw [heq] at ho
        rw [keyOf_anchor hlead (heq ▸ ho), keyOf_anchor hlead' ho, heq]
      | objectClass =>
        have heq := hone _ _ hlead (hlead'.perm hperm.symm)
        rw [keyOf_objectClass hlead ho, keyOf_objectClass hlead' (heq ▸ ho)]
    · exact absurd (hlead.perm hperm) (hno' _)
  · -- Without a mutation nothing in the key depends on the order.
    obtain hlead' | ⟨hanchor', -⟩ := anchorOf_cases objects ids'
    · exact absurd (hlead'.perm hperm.symm) (hno _)
    · rw [keyLoop_eq, keyLoop_eq, keyOf, keyOf]
      simp only [hanchor, hanchor', hany, insertionSort_eq_of_perm hperm,
        foldl_objTurn_perm hperm]

/-! ### The order of the roles -/

theorem perm_roleIds_rename (nodes : List Site) (σ : String → String) :
    (roleIds nodes).Perm (roleIds (nodes.map fun s : Site => (σ s.1, s.2))) := by
  have hids : ∀ l : List Site, (roleIds l).Perm (l.map Prod.snd) := fun l =>
    (List.perm_insertionSort _ l).map Prod.snd
  have hrename : (nodes.map fun s : Site => (σ s.1, s.2)).map Prod.snd = nodes.map Prod.snd := by
    rw [List.map_map]
    rfl
  exact (hids nodes).trans ((hrename ▸ hids (nodes.map fun s : Site => (σ s.1, s.2))).symm)

/-- The site with the least role comes first. -/
theorem roleIds_eq_cons {s : Site} (hnodup : (nodes.map Prod.fst).Nodup) (hs : s ∈ nodes)
    (hleast : ∀ t ∈ nodes, s.1 ≤ t.1) : ∃ rest, roleIds nodes = s.2 :: rest := by
  have hmem : ∀ t, t ∈ inRoleOrder nodes ↔ t ∈ nodes := fun t => List.mem_insertionSort _
  cases horder : inRoleOrder nodes with
  | nil =>
    rw [← hmem, horder] at hs
    cases hs
  | cons t rest =>
    have ht : t ∈ nodes := (hmem t).mp (horder ▸ List.mem_cons_self)
    have hsorted : (inRoleOrder nodes).Pairwise (Order.Preimage Prod.fst (· ≤ ·)) :=
      List.pairwise_insertionSort _ nodes
    rw [horder] at hsorted
    have hts : t.1 ≤ s.1 := by
      obtain rfl | hmem := List.mem_cons.mp (horder ▸ (hmem s).mpr hs)
      · exact le_rfl
      · exact (List.pairwise_cons.mp hsorted).1 s hmem
    -- Two sites with the least role are one.
    have heq : t = s := List.inj_on_of_nodup_map hnodup ht hs (le_antisymm hts (hleast t ht))
    exact ⟨rest.map Prod.snd, by rw [roleIds, horder, List.map_cons, heq]⟩

/-- Some renaming puts a site first: it swaps the role of the site and the least role. -/
theorem exists_rename_first {s : Site} (hnodup : (nodes.map Prod.fst).Nodup) (hs : s ∈ nodes) :
    ∃ σ : String → String, Function.Injective σ ∧
      ∃ rest, roleIds (nodes.map fun t : Site => (σ t.1, t.2)) = s.2 :: rest := by
  obtain ⟨least, hleast, hle⟩ : ∃ t ∈ nodes, ∀ u ∈ nodes, t.1 ≤ u.1 := by
    have hne : nodes.toFinset.Nonempty := ⟨s, List.mem_toFinset.mpr hs⟩
    obtain ⟨t, ht, hmin⟩ := Finset.exists_min_image nodes.toFinset Prod.fst hne
    exact ⟨t, List.mem_toFinset.mp ht, fun u hu => hmin u (List.mem_toFinset.mpr hu)⟩
  refine ⟨Equiv.swap s.1 least.1, (Equiv.swap s.1 least.1).injective, ?_⟩
  set renamed := nodes.map fun t : Site => (Equiv.swap s.1 least.1 t.1, t.2) with hrenamed
  have hnodup' : (renamed.map Prod.fst).Nodup := by
    have hroles : renamed.map Prod.fst = (nodes.map Prod.fst).map (Equiv.swap s.1 least.1) := by
      rw [hrenamed, List.map_map, List.map_map]
      rfl
    rw [hroles]
    exact hnodup.map (Equiv.swap s.1 least.1).injective
  -- The site now has the least role.
  have hmem : ((least.1, s.2) : Site) ∈ renamed :=
    List.mem_map.mpr ⟨s, hs, by rw [Equiv.swap_apply_left]⟩
  have hfirst := roleIds_eq_cons hnodup' hmem
  refine hfirst fun t ht => ?_
  -- The renamed roles are roles of the hypothesis.
  obtain ⟨u, hu, rfl⟩ := List.mem_map.mp ht
  show least.1 ≤ Equiv.swap s.1 least.1 u.1
  obtain heq | heq | ⟨-, -, heq⟩ : Equiv.swap s.1 least.1 u.1 = least.1 ∨
      Equiv.swap s.1 least.1 u.1 = s.1 ∨
      u.1 ≠ s.1 ∧ u.1 ≠ least.1 ∧ Equiv.swap s.1 least.1 u.1 = u.1 := by
    by_cases hus : u.1 = s.1
    · exact Or.inl (by rw [hus, Equiv.swap_apply_left])
    · by_cases hul : u.1 = least.1
      · exact Or.inr (Or.inl (by rw [hul, Equiv.swap_apply_right]))
      · exact Or.inr (Or.inr ⟨hus, hul, Equiv.swap_apply_of_ne_of_ne hus hul⟩)
  · exact heq.ge
  · rw [heq]
    exact hle s hs
  · rw [heq]
    exact hle u hu

/-! ### Role independence -/

/-- The texts of the object and of the anchor can be told apart. -/
theorem objAnchor_inj {o o' : ℤ}
    (h : cls ++ "|obj" ++ toString o ++ "|a" ++ toString m =
      cls ++ "|obj" ++ toString o' ++ "|a" ++ toString n) : m = n := by
  have hchars := congrArg String.toList h
  simp only [String.toList_append, List.append_assoc, List.append_cancel_left_eq] at hchars
  have hsep : ∀ z : ℤ, Separable ['|'] (toString z).toList := fun z =>
    separable_singleton_iff.mpr ⟨toList_toString_ne_nil z, bar_not_mem_toList_repr z⟩
  have htexts : (toString o).toList ++ (['|'] ++ 'a' :: (toString m).toList) =
      (toString o').toList ++ (['|'] ++ 'a' :: (toString n).toList) := hchars
  obtain ⟨-, hrest⟩ := append_sep_inj (List.cons_ne_nil _ _) (hsep o) (hsep o') htexts
  exact Int.repr_injective (String.toList_injective (List.cons.inj hrest).2)

theorem obj_inj {o o' : ℤ} (h : cls ++ "|obj" ++ toString o = cls ++ "|obj" ++ toString o') :
    o = o' := by
  have hchars := congrArg String.toList h
  simp only [String.toList_append, List.append_assoc, List.append_cancel_left_eq] at hchars
  exact Int.repr_injective (String.toList_injective hchars)

/-- Any leading node becomes the anchor under some renaming; if the key does not depend on the roles,
it stays the same. -/
theorem exists_rename_leading {objects : List SurfaceObject} {level : DedupLevel}
    {h : MappedHypothesis} (hind : RoleIndependent objects level h) {n : NodeId}
    (hn : Leading objects (roleIds h.nodes) n) :
    ∃ ids', (anchorOf objects ids').1 = n ∧ Leading objects ids' n ∧
      keyOf objects (hazardClass h.bugCategory) level (keyLoop objects ids') =
        keyOf objects (hazardClass h.bugCategory) level (keyLoop objects (roleIds h.nodes)) := by
  obtain ⟨s, hs, rfl⟩ := List.mem_map.mp hn.mem
  obtain ⟨σ, hσ, rest, hrest⟩ := exists_rename_first h.nodup_roles
    ((List.mem_insertionSort _).mp hs)
  have hperm := perm_roleIds_rename h.nodes σ
  refine ⟨_, ?_, hn.perm hperm, hind σ (hσ.injOn)⟩
  rw [hrest]
  exact anchorOf_cons (hrest ▸ hn.perm hperm)

/-- So at the level of anchors all leading nodes are the anchor. -/
theorem eq_anchorOf_of_leading {objects : List SurfaceObject} {h : MappedHypothesis}
    (hind : RoleIndependent objects .anchor h)
    (hlead : Leading objects (roleIds h.nodes) (anchorOf objects (roleIds h.nodes)).1) {n : NodeId}
    (hn : Leading objects (roleIds h.nodes) n) : n = (anchorOf objects (roleIds h.nodes)).1 := by
  obtain ⟨ids', rfl, hlead', hkey⟩ := exists_rename_leading hind hn
  obtain ⟨-, o, ho⟩ := hlead.exists_obj
  obtain ⟨-, o', ho'⟩ := hlead'.exists_obj
  rw [keyOf_anchor hlead' ho', keyOf_anchor hlead ho] at hkey
  exact objAnchor_inj hkey

/-- And at the level of objects they all touch its object. -/
theorem nodeToObj_eq_of_leading {objects : List SurfaceObject} {h : MappedHypothesis}
    (hind : RoleIndependent objects .objectClass h)
    (hlead : Leading objects (roleIds h.nodes) (anchorOf objects (roleIds h.nodes)).1) {n : NodeId}
    (hn : Leading objects (roleIds h.nodes) n) :
    nodeToObj objects n = nodeToObj objects (anchorOf objects (roleIds h.nodes)).1 := by
  obtain ⟨ids', rfl, hlead', hkey⟩ := exists_rename_leading hind hn
  obtain ⟨-, o, ho⟩ := hlead.exists_obj
  obtain ⟨-, o', ho'⟩ := hlead'.exists_obj
  rw [keyOf_objectClass hlead' ho', keyOf_objectClass hlead ho] at hkey
  rw [ho, ho', obj_inj hkey]

/-- At each level, the key does not depend on the roles exactly if what it takes from the leading
nodes is the same for all of them. -/
theorem roleIndependent_level_iff (objects : List SurfaceObject) (level : DedupLevel)
    (h : MappedHypothesis) :
    RoleIndependent objects level h ↔ OneLeading objects (roleIds h.nodes) level := by
  constructor
  · intro hind
    obtain hlead | ⟨-, hno⟩ := anchorOf_cases objects (roleIds h.nodes)
    · cases level with
      | exact => trivial
      | anchor =>
        have hall := @eq_anchorOf_of_leading objects h hind hlead
        exact fun m n hm hn => (hall hm).trans (hall hn).symm
      | objectClass =>
        have hall := @nodeToObj_eq_of_leading objects h hind hlead
        exact fun m n hm hn => (hall hm).trans (hall hn).symm
    · cases level with
      | exact => trivial
      | anchor => exact fun m _ hm => absurd hm (hno m)
      | objectClass => exact fun m _ hm => absurd hm (hno m)
  · intro hone σ _
    exact (keyOf_perm (perm_roleIds_rename _ σ) hone).symm

/-- At no level the key depends on the roles, if and only if the hypothesis has one leading node. -/
theorem roleIndependent_iff (objects : List SurfaceObject) (h : MappedHypothesis) :
    (∀ level, RoleIndependent objects level h) ↔
      ∀ m n, Leading objects (h.nodes.map Prod.snd) m → Leading objects (h.nodes.map Prod.snd) n →
        m = n := by
  have hperm : (roleIds h.nodes).Perm (h.nodes.map Prod.snd) :=
    (List.perm_insertionSort _ h.nodes).map Prod.snd
  simp only [roleIndependent_level_iff]
  constructor
  · intro hall m n hm hn
    exact hall .anchor m n (hm.perm hperm.symm) (hn.perm hperm.symm)
  · intro hone level
    cases level with
    | exact => trivial
    | anchor => exact fun m n hm hn => hone m n (hm.perm hperm) (hn.perm hperm)
    | objectClass =>
      exact fun m n hm hn => congrArg _ (hone m n (hm.perm hperm) (hn.perm hperm))

/-! ### Two writes under swapped roles -/

/-- A field that two threads write. -/
def writtenTwice : SurfaceObject where
  name := "dev->state"
  accesses :=
    [ ⟨⟨1, .write, 10, "dev->state = 1", false, ""⟩, "drv_ioctl", "drv_ioctl", "drv.c:10"⟩,
      ⟨⟨2, .write, 20, "dev->state = 2", false, ""⟩, "drv_irq", "drv_irq", "drv.c:20"⟩ ]
  accessingThreadIds := ⟨[1, 2], TidSet.sorted_one_two⟩
  hasFreeOperation := false
  hasScalarTornAccess := false
  hasListMutation := false
  isSelfRace := false
  riskScore := 3

/-- The race of the two writes, with the roles that the requirement checker uses. -/
def writeRace : MappedHypothesis where
  id := "l2_1"
  bugCategory := "data_race"
  nodes := [("a", 10), ("b", 20)]
  constraints := []
  description := "[L2] unordered writes"
  severity := "medium"
  nodup_roles := by decide

/-- The roles the other way round. -/
def swapRoles (role : String) : String :=
  if role = "a" then "b" else if role = "b" then "a" else role

/-- At the default level each order of the roles gives its own key. -/
theorem writeRace_not_roleIndependent :
    canonicalKey [writtenTwice] .anchor writeRace.toRaceHypothesis = "atomicity|obj0|a10" ∧
      canonicalKey [writtenTwice] .anchor (rename swapRoles writeRace.toRaceHypothesis) =
        "atomicity|obj0|a20" ∧
      ¬∀ level, RoleIndependent [writtenTwice] level writeRace := by
  have hkey : canonicalKey [writtenTwice] .anchor writeRace.toRaceHypothesis =
      "atomicity|obj0|a10" := by decide +kernel
  have hswap : canonicalKey [writtenTwice] .anchor (rename swapRoles writeRace.toRaceHypothesis) =
      "atomicity|obj0|a20" := by decide +kernel
  refine ⟨hkey, hswap, fun h => ?_⟩
  have hinj : Set.InjOn swapRoles {r | r ∈ writeRace.nodes.map Prod.fst} := by
    have hall : ∀ r ∈ ["a", "b"], ∀ s ∈ ["a", "b"], swapRoles r = swapRoles s → r = s := by
      decide
    exact fun r hr s hs => hall r hr s hs
  have heq := h .anchor swapRoles hinj
  rw [hkey, hswap] at heq
  exact absurd heq (by decide)

end Lace.Report
