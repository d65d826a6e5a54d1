import Mathlib.Data.List.Induction
import Lace.Library.Machine
import Lace.LLM.Json
import Lace.Query.Consistency

/-!
# The hypotheses of the interleaving agent

`propose_race_hypothesis` of `InterleavingAnalysisAgent`: the racing sites of a proposal are
grounded to nodes and bound under their roles, the constraints are read or, where there are none,
made from the first two roles, and a hypothesis that the verifier confirms is recorded unless its
category and nodes were recorded before.

The nodes of a hypothesis are a map, so a role that is given twice keeps its last site only.

## Main definitions

* `InterleavingAgent.proposeRaceHypothesis`: the tool;
* `InterleavingSession`: the context, with the sites of the recorded proposals;
* `InterleavingAgent.RecordedValid`: what the recorded hypotheses promise;
* `ConsistentRoles`: no role is given to two nodes.

## Main results

* `bindsAll_iff`: all sites are bound exactly if the roles are consistent;
* `InterleavingAgent.propose_cases`: a proposal is recorded, or changes nothing;
* `InterleavingAgent.recordedValid_iff`: when the promise is kept along a run.
-/

namespace Lace.LLM

open Library

/-- `SourceRef`: what a model says about where an access is. -/
structure SourceRef where
  /-- `file`. -/
  file : String := ""
  /-- `line`. -/
  line : ℤ := -1
  /-- `symbol`. -/
  symbol : String := ""
  /-- `snippet`. -/
  snippet : String := ""
  deriving DecidableEq, Repr

/-- A hypothesis with the texts that only the report reads. -/
structure RaceHypothesis extends Hypothesis where
  /-- `description`. -/
  description : String
  /-- `severity`. -/
  severity : String
  deriving DecidableEq, Repr

/-- `InterleavingContext`. -/
structure InterleavingContext where
  /-- `accesses`: the nodes of the accesses; a null pointer is `none`. -/
  accesses : List (Option NodeId) := []
  /-- `confirmed`. -/
  confirmed : List RaceHypothesis := []
  /-- `accepted_fingerprints`. -/
  acceptedFingerprints : List String := []
  /-- `total_tool_calls`. -/
  totalToolCalls : ℕ := 0
  deriving DecidableEq, Repr

/-- What becomes of a proposal that was verified. -/
inductive ProposalOutcome
  | recorded
  | isDuplicate
  /-- Some predicate failed. -/
  | failed
  deriving DecidableEq, Repr

/-- Why a proposal is rejected. -/
inductive ProposalRejection
  /-- An `error` key with its text. -/
  | error (text : String)
  /-- Reading an argument or a predicate threw. -/
  | exception
  deriving DecidableEq, Repr

/-- The answer to a proposal. -/
inductive ProposalAnswer
  | rejected (reason : ProposalRejection)
  /-- The feedback: the category, the grounding and the outcome. -/
  | feedback (bugCategory : String) (grounding : HypothesisVerifier.VerificationResult)
      (outcome : ProposalOutcome)
  deriving DecidableEq, Repr

/-- A racing site: its role and its node. -/
abbrev Site := String × NodeId

/-- `h.nodes[role] = nid`: a role gets a node, also one that has one already. -/
def setNode (nodes : List Site) (site : Site) : List Site :=
  -- A role that is bound already is bound anew: the last site of a role wins.
  if nodes.any fun entry => entry.1 = site.1 then
    nodes.map fun entry => if entry.1 = site.1 then site else entry
  else nodes ++ [site]

/-- `h.nodes` after the loop over the sites. -/
def bindNodes (sites : List Site) : List Site := sites.foldl setNode []

/-- An argument of a constraint, as the predicates read it: numbers with `get<int>`. -/
def Json.toValue : Json → JsonValue
  | .null => .null
  | .bool b => .bool b
  | .int n => .int (toInt32 n)
  | .str s => .str s
  | .float _ cut => .float cut
  | .arr _ | .obj _ => .other

/-- One element of `constraints`; it is skipped without a string `predicate`. -/
def readRaceConstraint (c : Json) : Option VerificationConstraint :=
  ((c.field "predicate").bind Json.asString).map fun predicate =>
    { predicate
      args :=
        match c.field "args" with
        | some (.obj fields) => fields.map fun entry => (entry.1, entry.2.toValue)
        | _ => [] }

/-- The constraints of a proposal that gives none: its first two sites run in parallel and
conflict. -/
def autoGround : List Site → List VerificationConstraint
  | a :: b :: _ =>
    [⟨"concurrent", [("a", .str a.1), ("b", .str b.1)]⟩,
      ⟨"conflicts", [("a", .str a.1), ("b", .str b.1)]⟩]
  | _ => []

/-- The constraints of a proposal: those it gives, or else those made from its first two sites. -/
def raceConstraints (arguments : Json) (sites : List Site) : List VerificationConstraint :=
  let given := (((arguments.field "constraints").bind Json.asArray).getD []).filterMap
    readRaceConstraint
  if given.isEmpty then autoGround sites else given

/-- The fingerprint of a hypothesis: its category and its nodes in increasing order. -/
def raceFingerprint (h : Hypothesis) : String :=
  h.bugCategory ++ "|" ++
    String.join (((h.nodes.map Prod.snd).insertionSort (· ≤ ·)).map fun nid => toString nid ++ ",")

/-- `InterleavingAnalysisAgent`: what its tool reads. -/
structure InterleavingAgent where
  /-- `ccpg_`. -/
  ccpg : CCPG
  /-- `verifier_`. -/
  verifier : Option HypothesisVerifier
  /-- `resolveSourceRef`: a node, or `-1`. -/
  resolveSourceRef : SourceRef → ℤ

namespace InterleavingAgent

variable (A : InterleavingAgent)

/-- `resolveRoleNode`: the node or `-1`, and the text left in `err`. -/
def resolveRoleNode (ctx : InterleavingContext) (site : Json) : ℤ × String :=
  match (site.field "access_index").bind Json.asInteger with
  | some idx =>
    if 0 ≤ idx ∧ idx < ctx.accesses.length then
      match ctx.accesses[idx.toNat]? with
      | some (some nid) =>
        if 0 ≤ nid ∧ (A.ccpg.getNodeByID nid).isSome then (nid, "")
        else (-1, "access_index " ++ toString idx ++ " has no usable node_id")
      | _ => (-1, "access_index " ++ toString idx ++ " out of range")
    else (-1, "access_index " ++ toString idx ++ " out of range")
  | none =>
    match (site.field "node_id").bind Json.asInteger with
    | some nid =>
      if (A.ccpg.getNodeByID nid).isSome then (nid, "")
      else (-1, "node_id " ++ toString nid ++ " not found in CCPG")
    | none =>
      let ref : SourceRef :=
        { file := ((site.field "file").bind Json.asString).getD ""
          line := ((site.field "line").bind Json.asInteger).getD (-1)
          symbol := ((site.field "symbol").bind Json.asString).getD ""
          snippet := ((site.field "snippet").bind Json.asString).getD "" }
      let nid := A.resolveSourceRef ref
      if 0 ≤ nid then (nid, "")
      else
        (-1, "could not ground site (provide access_index, node_id, or a clearer " ++
          "file/line/symbol/snippet)")

/-- One round of the loop over `racing_sites`. -/
def groundSite (ctx : InterleavingContext) (site : Json) : Except ProposalRejection Site :=
  match (site.field "role").bind Json.asString with
  | none => .error (.error "each racing site needs a string 'role'.")
  | some role =>
    let (nid, err) := A.resolveRoleNode ctx site
    if nid < 0 then .error (.error ("could not ground role '" ++ role ++ "': " ++ err))
    else .ok (role, nid)

/-- The arguments of a proposal that are texts. -/
structure ProposalTexts where
  /-- `description`. -/
  description : String
  /-- `consequence`. -/
  consequence : String
  /-- `bug_category`. -/
  bugCategory : String
  /-- `severity`. -/
  severity : String

/-- Read the texts with their defaults; a member that is no string throws. -/
def readTexts (arguments : Json) : Option ProposalTexts := do
  let description ← arguments.valueString "description" ""
  let consequence ← arguments.valueString "consequence" ""
  let bugCategory ← arguments.valueString "bug_category" "data_race"
  let severity ← arguments.valueString "severity" "medium"
  some { description, consequence, bugCategory, severity }

/-- The description with the consequence. -/
def fullDescription (description consequence : String) : String :=
  if consequence.isEmpty then description
  else
    (if description.isEmpty then description else description ++ "  ") ++ "[consequence] " ++
      consequence

/-- The racing sites and the hypothesis of a proposal, or the answer that rejects it. -/
def raceHypothesis (ctx : InterleavingContext) (arguments : Json) :
    Except ProposalRejection (List Site × RaceHypothesis) := do
  let some racingSites := ((arguments.field "racing_sites").bind Json.asArray).filter
      (!List.isEmpty ·)
    | .error (.error "racing_sites must be a non-empty array.")
  let some texts := readTexts arguments | .error .exception
  let sites ← racingSites.mapM (A.groundSite ctx)
  if (raceConstraints arguments sites).isEmpty then
    .error (.error "provide at least one constraint, or two racing sites for auto-grounding.")
  else
    .ok (sites,
      { id := "interleave_" ++ toString (ctx.confirmed.length + 1)
        bugCategory := texts.bugCategory
        nodes := bindNodes sites
        constraints := raceConstraints arguments sites
        description := fullDescription texts.description texts.consequence
        severity := texts.severity })

/-- The context with a hypothesis recorded. -/
def record (ctx : InterleavingContext) (h : RaceHypothesis) : InterleavingContext :=
  { ctx with
    confirmed := ctx.confirmed ++ [h]
    acceptedFingerprints := raceFingerprint h.toHypothesis :: ctx.acceptedFingerprints }

/-- `propose_race_hypothesis`: the tool that proposes a race, and has it verified. -/
def proposeRaceHypothesis (ctx : InterleavingContext) (arguments : Json) :
    ProposalAnswer × InterleavingContext :=
  match A.verifier with
  | none => (.rejected (.error "Verifier not initialized."), ctx)
  | some verifier =>
    match A.raceHypothesis ctx arguments with
    | .error reason => (.rejected reason, ctx)
    | .ok (_, h) =>
      match verifier.verify h.toHypothesis with
      | none => (.rejected .exception, ctx)
      | some grounding =>
        if grounding.allSatisfied then
          if raceFingerprint h.toHypothesis ∈ ctx.acceptedFingerprints then
            (.feedback h.bugCategory grounding .isDuplicate, ctx)
          else (.feedback h.bugCategory grounding .recorded, record ctx h)
        else (.feedback h.bugCategory grounding .failed, ctx)

/-- `execute_tool` for a proposal: the call is counted. -/
def executeTool (ctx : InterleavingContext) (arguments : Json) :
    ProposalAnswer × InterleavingContext :=
  A.proposeRaceHypothesis { ctx with totalToolCalls := ctx.totalToolCalls + 1 } arguments

end InterleavingAgent

/-! ### What the records promise -/

/-- The context, with the racing sites of the proposals that were recorded. -/
structure InterleavingSession where
  /-- The context. -/
  ctx : InterleavingContext := {}
  /-- The sites of the recorded proposals, in the order of `confirmed`. -/
  proposals : List (List Site) := []

/-- A session before its first proposal: an analysis lists the accesses of its object, cluster or
thread, and nothing is recorded yet. An entry is the node of an access, if there is one. -/
def InterleavingSession.start (accesses : List (Option NodeId)) : InterleavingSession where
  ctx := { accesses }

/-- The answer says that the hypothesis was recorded. -/
def ProposalAnswer.isRecorded : ProposalAnswer → Bool
  | .feedback _ _ .recorded => true
  | _ => false

/-- Every site is bound: the hypothesis has its node under its role. -/
def BindsAll (h : RaceHypothesis) (sites : List Site) : Prop :=
  ∀ site ∈ sites, h.nodes.lookup site.1 = some site.2

/-- No role is given to two nodes. -/
def ConsistentRoles (sites : List Site) : Prop :=
  ∀ s ∈ sites, ∀ t ∈ sites, s.1 = t.1 → s.2 = t.2

instance (sites : List Site) : Decidable (ConsistentRoles sites) :=
  inferInstanceAs (Decidable (∀ s ∈ sites, ∀ t ∈ sites, s.1 = t.1 → s.2 = t.2))

/-- The category of a hypothesis and its nodes in increasing order. -/
def raceKey (h : RaceHypothesis) : String × List NodeId :=
  (h.bugCategory, (h.nodes.map Prod.snd).insertionSort (· ≤ ·))

namespace InterleavingAgent

variable (A : InterleavingAgent)

/-- What the recorded hypotheses promise. -/
structure RecordedValid (s : InterleavingSession) : Prop where
  /-- Every one of them was verified. -/
  verified : ∀ h ∈ s.ctx.confirmed,
    ∃ verifier, A.verifier = some verifier ∧ verifier.Confirms h.toHypothesis
  /-- Every one of them has a constraint. -/
  constraints : ∀ h ∈ s.ctx.confirmed, h.constraints ≠ []
  /-- Every one of them binds the racing sites of its proposal. -/
  bound : List.Forall₂ BindsAll s.ctx.confirmed s.proposals
  /-- No two of them have the same category and nodes. -/
  distinct : (s.ctx.confirmed.map raceKey).Nodup

/-- The racing sites of a proposal, as far as it is well formed. -/
def proposalSites (ctx : InterleavingContext) (arguments : Json) : List Site :=
  match A.raceHypothesis ctx arguments with
  | .ok (sites, _) => sites
  | .error _ => []

/-- One proposal as a step of the session. -/
def step (s : InterleavingSession) (arguments : Json) : Option InterleavingSession :=
  some
    { ctx := (A.executeTool s.ctx arguments).2
      proposals :=
        if (A.executeTool s.ctx arguments).1.isRecorded then
          s.proposals ++ [A.proposalSites s.ctx arguments]
        else s.proposals }

/-- A well-formed proposal for the hypothesis `h` with these sites is verified and new. -/
structure Records (ctx : InterleavingContext) (arguments : Json) (sites : List Site)
    (h : RaceHypothesis) : Prop where
  /-- It is a well-formed proposal. -/
  proposal : A.raceHypothesis ctx arguments = .ok (sites, h)
  /-- The verifier confirms the hypothesis. -/
  confirmed : ∃ verifier, A.verifier = some verifier ∧ verifier.Confirms h.toHypothesis
  /-- Its fingerprint is new. -/
  fresh : raceFingerprint h.toHypothesis ∉ ctx.acceptedFingerprints

/-- The guard of a step: a proposal that is recorded gives no role to two nodes. -/
def RecordsConsistent (s : InterleavingSession) (arguments : Json) : Prop :=
  ∀ sites h, A.Records s.ctx arguments sites h → ConsistentRoles sites

end InterleavingAgent

/-! ### The nodes of a hypothesis -/

/-- Looking up the key of a replaced entry. -/
theorem lookup_map_replace (nodes : List Site) (site : Site) (role : String) :
    (nodes.map fun entry => if entry.1 = site.1 then site else entry).lookup role =
      if role = site.1 then (nodes.lookup role).map fun _ => site.2 else nodes.lookup role := by
  induction nodes with
  | nil => simp
  | cons entry nodes ih =>
    rw [List.map_cons]
    obtain ⟨r, nid⟩ := entry
    by_cases hentry : r = site.1
    · rw [if_pos hentry, List.lookup_cons, List.lookup_cons, ih]
      -- The entry is replaced.
      subst hentry
      by_cases hrole : role = site.1
      · simp [hrole]
      · rw [beq_false_of_ne hrole]
    · rw [if_neg hentry, List.lookup_cons, List.lookup_cons, ih]
      by_cases hrole : role = r
      · subst hrole
        simp [hentry]
      · rw [beq_false_of_ne hrole]

theorem lookup_eq_none_of_any {nodes : List Site} {role : String}
    (h : ¬nodes.any fun entry => entry.1 = role) : nodes.lookup role = none := by
  rw [List.lookup_eq_none_iff]
  intro entry hentry
  rw [bne_iff_ne]
  intro hrole
  exact h (List.any_eq_true.mpr ⟨entry, hentry, by simp [hrole]⟩)

theorem lookup_isSome_of_any {nodes : List Site} {role : String}
    (h : nodes.any fun entry => entry.1 = role) : (nodes.lookup role).isSome := by
  obtain ⟨entry, hentry, hrole⟩ := List.any_eq_true.mp h
  rw [List.lookup_isSome_iff]
  exact ⟨entry, hentry, beq_iff_eq.mpr (of_decide_eq_true hrole).symm⟩

/-- Setting the node of a role changes no other role. -/
theorem lookup_setNode (nodes : List Site) (site : Site) (role : String) :
    (setNode nodes site).lookup role =
      if role = site.1 then some site.2 else nodes.lookup role := by
  unfold setNode
  by_cases hany : nodes.any fun entry => entry.1 = site.1
  · -- The role has an entry, which is replaced.
    rw [if_pos hany, lookup_map_replace]
    by_cases hrole : role = site.1
    · subst hrole
      obtain ⟨nid, hnid⟩ := Option.isSome_iff_exists.mp (lookup_isSome_of_any hany)
      simp [hnid]
    · rw [if_neg hrole, if_neg hrole]
  · -- The role has none, and gets one behind the others.
    rw [if_neg hany, List.lookup_append]
    by_cases hrole : role = site.1
    · subst hrole
      rw [lookup_eq_none_of_any hany, if_pos rfl, List.lookup_cons, beq_self_eq_true]
      rfl
    · rw [if_neg hrole, List.lookup_cons, beq_false_of_ne hrole]
      exact Option.or_none

theorem bindNodes_concat (sites : List Site) (site : Site) :
    bindNodes (sites ++ [site]) = setNode (bindNodes sites) site := by
  rw [bindNodes, List.foldl_append]
  rfl

/-- What is bound is one of the sites. -/
theorem mem_of_lookup_bindNodes {sites : List Site} {role : String} {nid : NodeId}
    (h : (bindNodes sites).lookup role = some nid) : (role, nid) ∈ sites := by
  induction sites using List.reverseRecOn with
  | nil => cases h
  | append_singleton sites site ih =>
    rw [bindNodes_concat, lookup_setNode] at h
    split_ifs at h with hrole
    · rw [Option.some.injEq] at h
      rw [hrole, ← h]
      exact List.mem_append_right _ (List.mem_singleton_self site)
    · exact List.mem_append_left _ (ih h)

/-- Every role is bound. -/
theorem lookup_bindNodes_isSome {sites : List Site} {site : Site} (h : site ∈ sites) :
    ((bindNodes sites).lookup site.1).isSome := by
  induction sites using List.reverseRecOn with
  | nil => cases h
  | append_singleton sites last ih =>
    rw [bindNodes_concat, lookup_setNode]
    split_ifs with hrole
    · rfl
    · rcases List.mem_append.mp h with hmem | hmem
      · exact ih hmem
      · obtain rfl := List.mem_singleton.mp hmem
        exact absurd rfl hrole

/-- All sites are bound exactly if no role is given to two nodes. -/
theorem bindsAll_iff {h : RaceHypothesis} {sites : List Site} (hnodes : h.nodes = bindNodes sites) :
    BindsAll h sites ↔ ConsistentRoles sites := by
  unfold BindsAll
  rw [hnodes]
  constructor
  · intro hbound s hs t ht hrole
    have hs' := hbound s hs
    rw [hrole, hbound t ht, Option.some.injEq] at hs'
    exact hs'.symm
  · intro hconsistent site hsite
    obtain ⟨nid, hnid⟩ := Option.isSome_iff_exists.mp (lookup_bindNodes_isSome hsite)
    have heq : nid = site.2 := hconsistent _ (mem_of_lookup_bindNodes hnid) site hsite rfl
    rw [hnid, heq]

namespace InterleavingAgent

variable {A : InterleavingAgent} {ctx : InterleavingContext} {arguments : Json}
  {sites : List Site} {h : RaceHypothesis} {s : InterleavingSession}

/-! ### A proposal -/

/-- The hypothesis of a well-formed proposal binds its sites and has a constraint. -/
theorem nodes_of_raceHypothesis (hok : A.raceHypothesis ctx arguments = .ok (sites, h)) :
    h.nodes = bindNodes sites ∧ h.constraints ≠ [] := by
  unfold raceHypothesis at hok
  cases hracing : ((arguments.field "racing_sites").bind Json.asArray).filter
      (!List.isEmpty ·) with
  | none => simp [hracing] at hok
  | some racingSites =>
    cases htexts : readTexts arguments with
    | none => simp [hracing, htexts] at hok
    | some texts =>
      cases hsites : racingSites.mapM (A.groundSite ctx) with
      | error answer => simp [hracing, htexts, hsites, bind, Except.bind] at hok
      | ok sites' =>
        simp only [hracing, htexts, hsites, bind, Except.bind] at hok
        -- All parts were read; a proposal without constraints is refused.
        split_ifs at hok with hempty
        cases hok
        exact ⟨rfl, fun hnil => hempty (List.isEmpty_iff.mpr hnil)⟩

/-- A proposal is recorded, or changes neither the list nor the fingerprints. -/
theorem propose_cases (A : InterleavingAgent) (ctx : InterleavingContext) (arguments : Json) :
    (∃ sites h, A.Records ctx arguments sites h ∧
        (A.proposeRaceHypothesis ctx arguments).2 = record ctx h ∧
        (A.proposeRaceHypothesis ctx arguments).1.isRecorded = true) ∨
      (∀ sites h, ¬A.Records ctx arguments sites h) ∧
        (A.proposeRaceHypothesis ctx arguments).2 = ctx ∧
        (A.proposeRaceHypothesis ctx arguments).1.isRecorded = false := by
  unfold proposeRaceHypothesis
  cases hverifier : A.verifier with
  | none =>
    refine .inr ⟨fun sites h hrecords => ?_, rfl, rfl⟩
    obtain ⟨V, hV, -⟩ := hrecords.confirmed
    rw [hverifier] at hV
    cases hV
  | some verifier =>
    cases hproposal : A.raceHypothesis ctx arguments with
    | error reason =>
      refine .inr ⟨fun sites h hrecords => ?_, rfl, rfl⟩
      have hok := hrecords.proposal
      rw [hproposal] at hok
      cases hok
    | ok proposal =>
      obtain ⟨sites, h⟩ := proposal
      -- The proposal is for no other hypothesis.
      have hsame : ∀ sites' h', A.Records ctx arguments sites' h' → h' = h := by
        intro sites' h' hrecords
        have hok := hrecords.proposal
        rw [hproposal] at hok
        cases hok
        rfl
      dsimp only
      cases hverify : verifier.verify h.toHypothesis with
      | none =>
        refine .inr ⟨fun sites' h' hrecords => ?_, rfl, rfl⟩
        obtain ⟨V, hV, result, hresult, -⟩ := hrecords.confirmed
        rw [hverifier] at hV
        cases hV
        rw [hsame sites' h' hrecords, hverify] at hresult
        cases hresult
      | some grounding =>
        dsimp only
        by_cases hall : grounding.allSatisfied = true
        · by_cases hold : raceFingerprint h.toHypothesis ∈ ctx.acceptedFingerprints
          · rw [if_pos hall, if_pos hold]
            refine .inr ⟨fun sites' h' hrecords => ?_, rfl, rfl⟩
            exact hrecords.fresh (hsame sites' h' hrecords ▸ hold)
          · rw [if_pos hall, if_neg hold]
            exact .inl ⟨sites, h,
              ⟨hproposal, ⟨verifier, hverifier, grounding, hverify, hall⟩, hold⟩, rfl, rfl⟩
        · rw [if_neg hall]
          refine .inr ⟨fun sites' h' hrecords => ?_, rfl, rfl⟩
          obtain ⟨V, hV, result, hresult, hall'⟩ := hrecords.confirmed
          rw [hverifier] at hV
          cases hV
          rw [hsame sites' h' hrecords, hverify] at hresult
          cases hresult
          exact hall hall'

/-- The count of the calls plays no role. -/
theorem records_count {n : ℕ} :
    A.Records { ctx with totalToolCalls := n } arguments sites h ↔
      A.Records ctx arguments sites h :=
  ⟨fun hr => ⟨hr.proposal, hr.confirmed, hr.fresh⟩, fun hr => ⟨hr.proposal, hr.confirmed, hr.fresh⟩⟩

/-- A call that is not answered as recorded leaves the list and the fingerprints alone. -/
theorem unchanged_of_not_recorded (hanswer : (A.executeTool ctx arguments).1.isRecorded = false) :
    (A.executeTool ctx arguments).2.confirmed = ctx.confirmed ∧
      (A.executeTool ctx arguments).2.acceptedFingerprints = ctx.acceptedFingerprints := by
  rcases A.propose_cases { ctx with totalToolCalls := ctx.totalToolCalls + 1 } arguments with
    ⟨sites, h, -, -, hrecorded⟩ | ⟨-, hctx, -⟩
  · exact absurd (hanswer.symm.trans hrecorded) Bool.false_ne_true
  · rw [executeTool, hctx]
    exact ⟨rfl, rfl⟩

/-! ### The records along a run -/

/-- The invariant of a session: the promise, and the fingerprints are those of the list. -/
structure SessionInv (A : InterleavingAgent) (s : InterleavingSession) : Prop where
  /-- The hypotheses were verified. -/
  verified : ∀ h ∈ s.ctx.confirmed,
    ∃ verifier, A.verifier = some verifier ∧ verifier.Confirms h.toHypothesis
  /-- They have a constraint. -/
  constraints : ∀ h ∈ s.ctx.confirmed, h.constraints ≠ []
  /-- They bind the racing sites. -/
  bound : List.Forall₂ BindsAll s.ctx.confirmed s.proposals
  /-- The fingerprints are those of the list, the latest first. -/
  fingerprints : s.ctx.acceptedFingerprints =
    (s.ctx.confirmed.map fun h => raceFingerprint h.toHypothesis).reverse
  /-- None occurs twice. -/
  fresh : s.ctx.acceptedFingerprints.Nodup

theorem fingerprint_of_raceKey {h h' : RaceHypothesis} (hkey : raceKey h = raceKey h') :
    raceFingerprint h.toHypothesis = raceFingerprint h'.toHypothesis := by
  obtain ⟨hcategory, hnodes⟩ := Prod.mk.inj hkey
  rw [raceFingerprint, raceFingerprint, hcategory, hnodes]

theorem SessionInv.recordedValid (hinv : SessionInv A s) : A.RecordedValid s := by
  refine ⟨hinv.verified, hinv.constraints, hinv.bound, ?_⟩
  -- Hypotheses with one key would have one fingerprint.
  have hnodup : (s.ctx.confirmed.map fun h => raceFingerprint h.toHypothesis).Nodup := by
    rw [← List.nodup_reverse, ← hinv.fingerprints]
    exact hinv.fresh
  rw [List.nodup_map_iff_inj_on hnodup.of_map]
  intro h hh h' hh' hkey
  exact List.inj_on_of_nodup_map hnodup hh hh' (fingerprint_of_raceKey hkey)

/-- Nothing is recorded before the first proposal, whatever accesses the session lists. -/
theorem sessionInv_start (A : InterleavingAgent) (accesses : List (Option NodeId)) :
    SessionInv A (.start accesses) :=
  ⟨nofun, nofun, .nil, rfl, List.nodup_nil⟩

/-- What a step does to the session. -/
theorem step_cases (A : InterleavingAgent) (s : InterleavingSession) (arguments : Json) :
    (∃ sites h n, A.Records s.ctx arguments sites h ∧
        A.step s arguments = some
          ⟨record { s.ctx with totalToolCalls := n } h, s.proposals ++ [sites]⟩) ∨
      (∀ sites h, ¬A.Records s.ctx arguments sites h) ∧
        ∃ n, A.step s arguments = some ⟨{ s.ctx with totalToolCalls := n }, s.proposals⟩ := by
  rcases A.propose_cases { s.ctx with totalToolCalls := s.ctx.totalToolCalls + 1 } arguments with
    ⟨sites, h, hrecords, hctx, hanswer⟩ | ⟨hno, hctx, hanswer⟩
  · refine .inl ⟨sites, h, s.ctx.totalToolCalls + 1, records_count.mp hrecords, ?_⟩
    have hsites : A.proposalSites s.ctx arguments = sites := by
      rw [proposalSites, (records_count.mp hrecords).proposal]
    rw [step, executeTool, hctx, hanswer, if_pos rfl, hsites]
  · refine .inr ⟨fun sites h hrecords => hno sites h (records_count.mpr hrecords),
      s.ctx.totalToolCalls + 1, ?_⟩
    rw [step, executeTool, hctx, hanswer, if_neg Bool.false_ne_true]

/-- A step that records consistent roles keeps the invariant. -/
theorem SessionInv.step {s' : InterleavingSession} (hinv : SessionInv A s)
    (hstep : A.step s arguments = some s') (hconsistent : A.RecordsConsistent s arguments) :
    SessionInv A s' := by
  rcases A.step_cases s arguments with ⟨sites, h, n, hrecords, hs'⟩ | ⟨-, n, hs'⟩
  · rw [hs'] at hstep
    cases hstep
    obtain ⟨hnodes, hconstraints⟩ := nodes_of_raceHypothesis hrecords.proposal
    -- The hypothesis comes behind the others, its fingerprint in front of theirs.
    refine ⟨?_, ?_, ?_, ?_, List.nodup_cons.mpr ⟨hrecords.fresh, hinv.fresh⟩⟩
    · exact List.forall_mem_append.mpr
        ⟨hinv.verified, List.forall_mem_singleton.mpr hrecords.confirmed⟩
    · exact List.forall_mem_append.mpr
        ⟨hinv.constraints, List.forall_mem_singleton.mpr hconstraints⟩
    · refine List.rel_append hinv.bound (.cons ?_ .nil)
      exact (bindsAll_iff hnodes).mpr (hconsistent sites h hrecords)
    · show raceFingerprint h.toHypothesis :: s.ctx.acceptedFingerprints =
        ((s.ctx.confirmed ++ [h]).map fun h => raceFingerprint h.toHypothesis).reverse
      rw [hinv.fingerprints, List.map_append, List.reverse_append]
      rfl
  · rw [hs'] at hstep
    cases hstep
    exact ⟨hinv.verified, hinv.constraints, hinv.bound, hinv.fingerprints, hinv.fresh⟩

/-- A step that records inconsistent roles loses the promise. -/
theorem not_recordedValid_step {s' : InterleavingSession}
    (hstep : A.step s arguments = some s') (hinconsistent : ¬A.RecordsConsistent s arguments) :
    ¬A.RecordedValid s' := by
  unfold RecordsConsistent at hinconsistent
  push Not at hinconsistent
  obtain ⟨sites, h, hrecords, hinconsistent⟩ := hinconsistent
  rcases A.step_cases s arguments with ⟨sites', h', n, hrecords', hs'⟩ | ⟨hno, -⟩
  · rw [hs'] at hstep
    cases hstep
    have hsame := hrecords'.proposal
    rw [hrecords.proposal] at hsame
    cases hsame
    intro hvalid
    -- The last hypothesis belongs to the last proposal.
    have hbound := List.forall₂_reverse_iff.mpr hvalid.bound
    dsimp only [record] at hbound
    rw [List.reverse_append, List.reverse_append] at hbound
    obtain ⟨hlast, -⟩ := List.forall₂_cons.mp hbound
    exact hinconsistent
      ((bindsAll_iff (nodes_of_raceHypothesis hrecords.proposal).1).mp hlast)
  · exact absurd hrecords (hno sites h)

/-- Whatever accesses the session lists: along every sequence of proposals the records keep their
promise exactly as long as the proposals that are recorded give no role to two nodes, and a proposal
that is not recorded changes neither the list nor the fingerprints. -/
theorem recordedValid_iff (A : InterleavingAgent) (accesses : List (Option NodeId))
    (trace : List Json) :
    (Always A.step A.RecordedValid (.start accesses) trace ↔
        Meets A.step A.RecordsConsistent (.start accesses) trace) ∧
      ∀ ctx arguments, (A.executeTool ctx arguments).1.isRecorded = false →
        (A.executeTool ctx arguments).2.confirmed = ctx.confirmed ∧
          (A.executeTool ctx arguments).2.acceptedFingerprints = ctx.acceptedFingerprints := by
  refine ⟨always_iff_meets (fun s hinv => hinv.recordedValid) ?_ ?_ (sessionInv_start A accesses),
    fun ctx arguments => unchanged_of_not_recorded⟩
  · intro s arguments s' hinv hstep hconsistent
    exact hinv.step hstep hconsistent
  · intro s arguments s' _ hstep hinconsistent
    exact not_recordedValid_step hstep hinconsistent

/-! ### A role that is given twice -/

/-- The graph and the verifier of `partlyLocked`. -/
def partlyLockedAgent : InterleavingAgent where
  ccpg := HypothesisVerifier.twoPaths
  verifier := some HypothesisVerifier.partlyLocked
  resolveSourceRef _ := -1

/-- The accesses of the two threads: the first one is protected by a lock, the second one is not. -/
def partlyLockedSession : InterleavingSession := .start [some 2, some 1]

/-- A proposal that gives one role to both accesses. -/
def sameRoleTwice : Json :=
  .obj [("bug_category", .str "data_race"),
    ("constraints", .arr [.obj [("args", .obj [("node", .str "access")]),
      ("predicate", .str "not_lock_protected")]]),
    ("description", .str "both threads write the counter"),
    ("racing_sites", .arr [.obj [("access_index", .int 0), ("role", .str "access")],
      .obj [("access_index", .int 1), ("role", .str "access")]])]

/-- Its hypothesis has the second node only. -/
def sameRoleHypothesis : RaceHypothesis where
  id := "interleave_1"
  bugCategory := "data_race"
  nodes := [("access", 1)]
  constraints := [⟨"not_lock_protected", [("node", .str "access")]⟩]
  description := "both threads write the counter"
  severity := "medium"

theorem records_sameRole :
    partlyLockedAgent.Records partlyLockedSession.ctx sameRoleTwice [("access", 2), ("access", 1)]
      sameRoleHypothesis where
  proposal := by rfl
  confirmed := ⟨HypothesisVerifier.partlyLocked, rfl, by decide +kernel⟩
  fresh := List.not_mem_nil

/-- The proposal is recorded, and its first site is lost. -/
theorem sameRoleTwice_lost :
    ¬Always partlyLockedAgent.step partlyLockedAgent.RecordedValid partlyLockedSession
      [sameRoleTwice] := by
  intro halways
  obtain ⟨s', hs'⟩ : ∃ s', partlyLockedAgent.step partlyLockedSession sameRoleTwice = some s' :=
    ⟨_, rfl⟩
  refine not_recordedValid_step hs' (fun hconsistent => ?_) (halways.2 s' hs').head
  exact absurd (hconsistent _ _ records_sameRole) (by decide)

end InterleavingAgent

end Lace.LLM
