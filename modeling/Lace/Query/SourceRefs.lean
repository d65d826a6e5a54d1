import Mathlib.Data.Int.ConditionallyCompleteOrder
import Mathlib.Order.ConditionallyCompleteLattice.Basic
import Lace.CCPG.LocKeys
import Lace.CPG.MethodNames
import Lace.Library.Ranking
import Lace.LLM.Interleaving
import Lace.Surface.FieldKeyText

/-!
# Resolving source references

`resolveSourceRef` looks for the node of the graph that a reference to the source means. The nodes
of the functions with the name of its symbol are scored, or all nodes if there is no such function:
for the line, the snippet and the file. The best node so far is kept along the way.

## Main definitions

* `SourceIndex`: the nodes, and the functions by their names;
* `lineDist`, `score`: how well a node fits a reference;
* `SourceIndex.resolveSourceRef`: the node that is returned;
* `BestMatch`: it is the best candidate.

## Main results

* `best_consider`: a turn of the loop keeps the better node;
* `resolveSourceRef_bestMatch`: what is returned, in every order of the candidates.
-/

namespace Lace.Query

open Library LLM

/-! ### The nodes -/

/-- `CCPGNode`: what the resolver reads of a node. -/
structure SourceNode where
  /-- `getId`. -/
  id : ℤ
  /-- The ids start at 1. -/
  id_pos : 0 < id
  /-- `getCode` of the node of the CPG, if there is one. -/
  code : Option String
  /-- `getNodeLoc`. -/
  loc : NodeLoc

/-- A node of type `Method`, with the function of its node in the graph. -/
structure IndexedMethod extends CPG.MethodNode where
  /-- `getFunction`; null also where the graph has no node for it. -/
  function : Option FuncId

/-- The graph and its CPG, as the resolver reads them. -/
structure SourceIndex where
  /-- The nodes of type `Method`. -/
  methods : List IndexedMethod
  /-- `Function::getNodes`, in iteration order. -/
  functionNodes : FuncId → List SourceNode
  /-- `CCPG::getNodes`, in iteration order. -/
  nodes : List SourceNode

/-! ### Snippets -/

/-- A character in `normalizeWs`, with the text so far and `inSpace`. -/
def normalizeChar (s : List Char × Bool) (c : Char) : List Char × Bool :=
  if isSpace c then (s.1, true)
  else ((if s.2 && !s.1.isEmpty then s.1 ++ [' '] else s.1) ++ [c], false)

/-- `normalizeWs`: the text with runs of blanks as one. -/
def normalizeWs (s : String) : String := String.ofList (s.toList.foldl normalizeChar ([], false)).1

/-- `snippetMatches`: the code has the snippet in it, up to blanks. -/
def snippetMatches (code snippet : String) : Bool :=
  if snippet = "" then false
  else if normalizeWs snippet = "" then false
  else (findStr (normalizeWs code) (normalizeWs snippet)).isSome

/-! ### Scores -/

/-- `std::numeric_limits<int>::max()`, the distance of a node or a reference without a line. -/
def noLineDist : ℤ := 2 ^ 31 - 1

/-- The reference and the node have a line. -/
def haveLines (ref : SourceRef) (n : SourceNode) : Bool :=
  0 ≤ ref.line && 0 < n.loc.lineNumber

/-- `lineDist`: how far a node is from the line that was named. -/
def lineDist (ref : SourceRef) (n : SourceNode) : ℤ :=
  if haveLines ref n then |n.loc.lineNumber - ref.line| else noLineDist

/-- `kExactLineBonus`: what the named line itself is worth. -/
def kExactLineBonus : ℤ := 100

/-- `kNearLineCap`: what a line beside it is worth, less the distance. -/
def kNearLineCap : ℤ := 40

/-- `kSnippetBonus`: what the named code is worth. -/
def kSnippetBonus : ℤ := 60

/-- `kFileBonus`: what the named file is worth. -/
def kFileBonus : ℤ := 20

/-- `score`: how well a node fits what was named. -/
def score (ref : SourceRef) (n : SourceNode) : ℤ :=
  (if haveLines ref n then
    if lineDist ref n = 0 then kExactLineBonus else max 0 (kNearLineCap - lineDist ref n)
  else 0) +
  (if n.code.any fun code => snippetMatches code ref.snippet then kSnippetBonus else 0) +
  if ref.file ≠ "" && arePathsLikelySameFile n.loc.getBaseFileName ref.file.toList then kFileBonus
  else 0

/-! ### The best candidate -/

/-- The variables of the loop over the candidates. -/
structure Best where
  /-- `bestId`. -/
  bestId : ℤ
  /-- `bestScore`. -/
  bestScore : ℤ
  /-- `bestLineDist`. -/
  bestLineDist : ℤ

/-- Their values at first. -/
def Best.start : Best := ⟨-1, 0, noLineDist⟩

/-- The node has code. -/
def hasCode (n : SourceNode) : Bool :=
  match n.code with
  | none => false
  | some code => !(code = "" || code = "<empty>")

/-- The test whether a node is better than the best one so far. -/
def isBetter (ref : SourceRef) (b : Best) (n : SourceNode) : Bool :=
  b.bestScore < score ref n ||
    (score ref n = b.bestScore && lineDist ref n < b.bestLineDist) ||
    (score ref n = b.bestScore && lineDist ref n = b.bestLineDist &&
      (b.bestId < 0 || n.id < b.bestId))

/-- A turn of the loop. -/
def consider (ref : SourceRef) (b : Best) (n : SourceNode) : Best :=
  if !hasCode n then b
  -- A node that fits in nothing is no candidate.
  else if score ref n ≤ 0 then b
  else if isBetter ref b n then ⟨n.id, score ref n, lineDist ref n⟩
  else b

/-- The id of the best one of some candidates. -/
def resolveAmong (ref : SourceRef) (candidates : List SourceNode) : ℤ :=
  (candidates.foldl (consider ref) Best.start).bestId

namespace SourceIndex

variable (I : SourceIndex)

/-- `functionsByName`: the functions that a name may stand for. -/
def functionsByName (symbol : String) : List FuncId :=
  if symbol = "" then []
  else
    let methods := I.methods.filter fun m => m.toMethodNode ∈
      CPG.findMethodsByName (I.methods.map IndexedMethod.toMethodNode) symbol.toList
    (methods.filterMap IndexedMethod.function).foldl
      (fun result fn => if fn ∈ result then result else result ++ [fn]) []

/-- `candidates`: the nodes that are scored: those of the named function, or all. -/
def candidates (ref : SourceRef) : List SourceNode :=
  let fns := I.functionsByName ref.symbol
  -- Without a function of that name, all nodes are scored.
  if fns ≠ [] then fns.flatMap I.functionNodes else I.nodes

/-- `resolveSourceRef`: the node that fits best, or -1. -/
def resolveSourceRef (ref : SourceRef) : ℤ :=
  if ref.symbol = "" && ref.line < 0 && ref.snippet = "" then -1
  else resolveAmong ref (I.candidates ref)

end SourceIndex

/-- The node is scored, and its score is positive. -/
def Matches (ref : SourceRef) (n : SourceNode) : Prop := hasCode n = true ∧ 0 < score ref n

/-- The order of the candidates: by score, distance and id. -/
def NotWorse (ref : SourceRef) (n m : SourceNode) : Prop :=
  score ref m < score ref n ∨ score ref n = score ref m ∧
    (lineDist ref n < lineDist ref m ∨ lineDist ref n = lineDist ref m ∧ n.id ≤ m.id)

/-- The id of a candidate that no other one is better than, or `-1` if no candidate matches. -/
structure BestMatch (ref : SourceRef) (candidates : List SourceNode) (id : ℤ) : Prop where
  /-- No candidate matches. -/
  none_iff : id = -1 ↔ ∀ n ∈ candidates, ¬Matches ref n
  /-- The best one of those that match. -/
  best : id ≠ -1 → ∃ n ∈ candidates, n.id = id ∧ Matches ref n ∧
    ∀ m ∈ candidates, Matches ref m → NotWorse ref n m

/-! ### Keys -/

/-- A key by which the least one is best. -/
abbrev MatchKey := ℤ ×ₗ ℤ ×ₗ ℤ

/-- The key of a score, a distance and an id. -/
def keyOf (score lineDist id : ℤ) : MatchKey := toLex (-score, toLex (lineDist, id))

/-- The key of a node that matches. -/
def matchKey (ref : SourceRef) (n : SourceNode) : Option MatchKey :=
  if !hasCode n then none
  else if score ref n ≤ 0 then none
  else some (keyOf (score ref n) (lineDist ref n) n.id)

/-- The key of the best node so far. -/
def Best.key (b : Best) : WithTop MatchKey :=
  if b.bestId < 0 then ⊤ else (keyOf b.bestScore b.bestLineDist b.bestId : MatchKey)

/-- The variables have their first values, or belong to a node. -/
def Best.Valid (b : Best) : Prop := b = Best.start ∨ 0 < b.bestId

variable {ref : SourceRef} {n m : SourceNode} {b : Best}

theorem matchKey_eq_some {k : MatchKey} : matchKey ref n = some k ↔
    Matches ref n ∧ k = keyOf (score ref n) (lineDist ref n) n.id := by
  unfold matchKey Matches
  split_ifs with hcode hscore
  · simp [Bool.not_eq_true' .. |>.mp hcode]
  · simp [hscore]
  · rw [Bool.not_eq_true', Bool.not_eq_false] at hcode
    rw [Option.some_inj, and_iff_right ⟨hcode, not_le.mp hscore⟩]
    exact eq_comm

/-- The order of the keys is the order of the candidates. -/
theorem notWorse_iff : NotWorse ref n m ↔
    keyOf (score ref n) (lineDist ref n) n.id ≤ keyOf (score ref m) (lineDist ref m) m.id := by
  simp only [NotWorse, keyOf, Prod.Lex.toLex_le_toLex, neg_lt_neg_iff, neg_inj]

theorem Best.key_of_pos (hb : 0 < b.bestId) :
    b.key = (keyOf b.bestScore b.bestLineDist b.bestId : MatchKey) := if_neg hb.not_gt

/-- A node is better than another one if its key is smaller. -/
theorem isBetter_iff (hb : 0 < b.bestId) : isBetter ref b n = true ↔
    keyOf (score ref n) (lineDist ref n) n.id < keyOf b.bestScore b.bestLineDist b.bestId := by
  simp only [isBetter, keyOf, Prod.Lex.toLex_lt_toLex, neg_lt_neg_iff, neg_inj, Bool.or_eq_true,
    Bool.and_eq_true, decide_eq_true_eq, or_iff_right hb.not_gt]
  tauto

/-- A turn keeps the smaller one of two keys. -/
theorem best_consider (b : Best) (n : SourceNode) (hb : b.Valid) :
    (consider ref b n).Valid ∧
      (consider ref b n).key = min b.key (matchKey ref n).toList.minimum := by
  unfold consider matchKey
  split_ifs with hcode hscore hbetter
  · exact ⟨hb, (min_eq_left le_top).symm⟩
  · exact ⟨hb, (min_eq_left le_top).symm⟩
  · refine ⟨Or.inr n.id_pos, ?_⟩
    rw [Best.key_of_pos n.id_pos, Option.toList_some, List.minimum_singleton]
    refine (min_eq_right ?_).symm
    rcases hb with rfl | hpos
    · exact le_top
    · rw [Best.key_of_pos hpos]
      exact WithTop.coe_le_coe.mpr ((isBetter_iff hpos).mp hbetter).le
  · refine ⟨hb, ?_⟩
    rcases hb with rfl | hpos
    · -- Any positive score is better than the first values.
      exact absurd (by simp [isBetter, Best.start, not_le.mp hscore]) hbetter
    · rw [Best.key_of_pos hpos, Option.toList_some, List.minimum_singleton]
      exact (min_eq_left (WithTop.coe_le_coe.mpr (not_lt.mp (mt (isBetter_iff hpos).mpr hbetter)))).symm

/-- The best candidate has the least key. -/
theorem key_foldl_consider (ref : SourceRef) (candidates : List SourceNode) :
    (candidates.foldl (consider ref) Best.start).Valid ∧
      (candidates.foldl (consider ref) Best.start).key =
        (candidates.filterMap (matchKey ref)).minimum := by
  obtain ⟨hvalid, hkey⟩ := best_foldl best_consider (Or.inl rfl) candidates
  exact ⟨hvalid, hkey.trans (min_eq_right le_top)⟩

/-- The id in a key, or `-1`. -/
def idOf : WithTop MatchKey → ℤ
  | ⊤ => -1
  | (k : MatchKey) => (ofLex (ofLex k).2).2

theorem Best.Valid.idOf_key (hb : b.Valid) : idOf b.key = b.bestId := by
  rcases hb with rfl | hpos
  · rfl
  · rw [Best.key_of_pos hpos]
    rfl

/-- What is returned is read off the least key. -/
theorem resolveAmong_eq (candidates : List SourceNode) :
    resolveAmong ref candidates = idOf (candidates.filterMap (matchKey ref)).minimum := by
  obtain ⟨hvalid, hkey⟩ := key_foldl_consider ref candidates
  rw [resolveAmong, ← hvalid.idOf_key, hkey]

/-- The order of the candidates does not matter. -/
theorem resolveAmong_perm {candidates candidates' : List SourceNode}
    (h : candidates.Perm candidates') :
    resolveAmong ref candidates = resolveAmong ref candidates' := by
  rw [resolveAmong_eq, resolveAmong_eq, minimum_perm (h.filterMap _)]

/-- The best one of some candidates. -/
theorem bestMatch_resolveAmong (candidates : List SourceNode) :
    BestMatch ref candidates (resolveAmong ref candidates) := by
  rw [resolveAmong_eq]
  cases hmin : (candidates.filterMap (matchKey ref)).minimum with
  | top =>
    have hnone : ∀ n ∈ candidates, ¬Matches ref n := by
      intro n hn hmatch
      have hmem : keyOf (score ref n) (lineDist ref n) n.id ∈ candidates.filterMap (matchKey ref) :=
        List.mem_filterMap.mpr ⟨n, hn, matchKey_eq_some.mpr ⟨hmatch, rfl⟩⟩
      rw [List.minimum_eq_top.mp hmin] at hmem
      exact List.not_mem_nil hmem
    exact ⟨⟨fun _ => hnone, fun _ => rfl⟩, fun hne => absurd rfl hne⟩
  | coe k =>
    obtain ⟨hmem, hle⟩ := List.minimum_eq_coe_iff.mp hmin
    obtain ⟨n, hn, hkey⟩ := List.mem_filterMap.mp hmem
    obtain ⟨hmatch, rfl⟩ := matchKey_eq_some.mp hkey
    have hid : idOf (keyOf (score ref n) (lineDist ref n) n.id : MatchKey) = n.id := rfl
    rw [hid]
    refine ⟨⟨fun h => ?_, fun h => absurd hmatch (h n hn)⟩, fun _ => ⟨n, hn, rfl, hmatch, ?_⟩⟩
    · have hpos := n.id_pos
      omega
    · intro m hm hmatch'
      rw [notWorse_iff]
      exact hle _ (List.mem_filterMap.mpr ⟨m, hm, matchKey_eq_some.mpr ⟨hmatch', rfl⟩⟩)

/-- A reference that says something is resolved to the best candidate, in whatever order the
candidates are read. -/
theorem resolveSourceRef_bestMatch (I : SourceIndex) (ref : SourceRef)
    (hsaid : ref.symbol ≠ "" ∨ 0 ≤ ref.line ∨ ref.snippet ≠ "") :
    BestMatch ref (I.candidates ref) (I.resolveSourceRef ref) ∧
      ∀ candidates, candidates.Perm (I.candidates ref) →
        resolveAmong ref candidates = I.resolveSourceRef ref := by
  have hresolve : I.resolveSourceRef ref = resolveAmong ref (I.candidates ref) := by
    refine if_neg fun h => ?_
    simp only [Bool.and_eq_true, decide_eq_true_eq] at h
    obtain ⟨⟨hsymbol, hline⟩, hsnippet⟩ := h
    exact hsaid.elim (· hsymbol) fun h => h.elim (not_le.mpr hline) (· hsnippet)
  rw [hresolve]
  exact ⟨bestMatch_resolveAmong _, fun _ => resolveAmong_perm⟩

/-- Three statements on the lines 12, 9 and 11. -/
def threeStatements : SourceIndex where
  methods := []
  functionNodes _ := []
  nodes :=
    [ ⟨1, by decide, some "x = 1", ⟨"a.c", 12⟩⟩,
      ⟨2, by decide, some "y = 2", ⟨"a.c", 9⟩⟩,
      ⟨3, by decide, some "z = 3", ⟨"a.c", 11⟩⟩ ]

/-- A reference to line 10 means the first of the two nodes next to it. -/
theorem threeStatements_line10 : threeStatements.resolveSourceRef { line := 10 } = 2 ∧
    ∀ candidates, candidates.Perm (threeStatements.candidates { line := 10 }) →
      resolveAmong { line := 10 } candidates = 2 := by
  have hid : threeStatements.resolveSourceRef { line := 10 } = 2 := by decide +kernel
  have hbest := resolveSourceRef_bestMatch threeStatements { line := 10 }
    (Or.inr (Or.inl (by decide)))
  refine ⟨hid, fun candidates hperm => ?_⟩
  rw [hbest.2 candidates hperm, hid]

end Lace.Query
