import Egregore.Github.Artifacts
import Egregore.Github.StateSpec

/-!
# The artifacts that records write

Which artifacts each emitter of records writes. They are those that the importer computes apart
from the emitters, to remember them. `carries_emitted` says so for every payload: each emitter has
its own lemma, and they are put together by `Carries.append` and `Carries.flatMap`.
-/

namespace Egregore.Github

open Base

section Store

/-- A node or edge with this ID. -/
def ImportRecord.writes (id : String) : ImportRecord → Bool
  | .node record => record.id = id
  | .edge record => record.id = id
  | .tombstone _ => false

/-- A tombstone of this ID. -/
def ImportRecord.deletes (id : String) : ImportRecord → Bool
  | .tombstone record => record.deletedId = id
  | _ => false

/-- The node of an account. -/
def ImportRecord.isIdentity : ImportRecord → Bool
  | .node record => record.kind = .externalIdentity
  | _ => false

end Store

section Unowned

variable {blake3 : String → String} {repo : String}

/-- What the IDs of a run need of the hash and of the repository. -/
structure Legible (blake3 : String → String) (repo : String) : Prop where
  injective : Function.Injective blake3
  hex : ∀ text, Unbroken (blake3 text)
  mark : ∀ text, '\x01' ∉ (blake3 text).toList
  repo : Unbroken repo

/-- In a legible repository the parts of an ID can be told apart. -/
theorem Legible.project (legible : Legible blake3 repo) (parts : List String) :
    Unbroken (projectStableId blake3 parts) :=
  unbroken_projectStableId legible.hex parts

/-- So an artifact belongs to one slot only. -/
theorem Legible.unique (legible : Legible blake3 repo) {slot other : Slot} {id : String}
    (artifact : slot.Artifact blake3 repo id) (artifact' : other.Artifact blake3 repo id) :
    other = slot := by
  obtain ⟨parts, rfl, stem⟩ := artifact.stem legible.hex legible.repo
  obtain ⟨others, same, stem'⟩ := artifact'.stem legible.hex legible.repo
  have texts := hashedParts_of_projectStableId legible.injective same
  rw [stemOf, ← texts] at stem'
  exact stem'.unique legible.injective legible.repo stem

/-- An ID of another stem is no artifact at all. -/
theorem Legible.unowned (legible : Legible blake3 repo) {parts : List String}
    (foreign : ∀ slot : Slot, ¬ slot.HasStem blake3 repo (stemOf parts)) (slot : Slot) :
    ¬ slot.Artifact blake3 repo (projectStableId blake3 parts) := by
  intro artifact
  obtain ⟨others, same, stem⟩ := artifact.stem legible.hex legible.repo
  have texts := hashedParts_of_projectStableId legible.injective same
  rw [stemOf, ← texts] at stem
  exact foreign slot stem

/-- A stem without parts is that of no slot. -/
theorem Slot.not_hasStem_nil (slot : Slot) : ¬ slot.HasStem blake3 repo [] := by
  cases slot <;> simp [Slot.HasStem]

/-- A record that is neither an edge nor a diagnostic. -/
theorem Legible.other (legible : Legible blake3 repo) {kind : String} (unbroken : Unbroken kind)
    (isEdge : kind ≠ "edge") (isDiagnostic : kind ≠ "Diagnostic") (parts : List String) (slot : Slot) :
    ¬ slot.Artifact blake3 repo (projectStableId blake3 ("project" :: kind :: parts)) := by
  apply legible.unowned
  rw [stemOf_other unbroken isEdge isDiagnostic]
  exact Slot.not_hasStem_nil

/-- The ID of an artifact is not one of the code graph. -/
theorem Legible.graph (legible : Legible blake3 repo) (parts : List String) (slot : Slot) :
    ¬ slot.Artifact blake3 repo (stableId blake3 parts) := by
  intro artifact
  obtain ⟨others, same, -⟩ := artifact.stem legible.hex legible.repo
  have chars := congrArg String.toList same
  simp [stableId, projectStableId] at chars

/-- An edge that no slot tracks. -/
theorem Legible.edge (legible : Legible blake3 repo) {label : EdgeLabel}
    (untracked : label.asStr ∉ ["MERGED_AS", "REQUESTED_REVIEW_FROM", "REVIEWS_COMMIT",
      "github_review_unanchored", "github_commit_unresolved"])
    (parts : List String) (target : String) (slot : Slot) :
    ¬ slot.Artifact blake3 repo (projectEdgeId blake3 label (projectStableId blake3 parts) target) := by
  apply legible.unowned
  intro slot
  simp only [List.mem_cons, List.not_mem_nil, or_false, not_or] at untracked
  rw [stemOf_edge label (legible.project parts)]
  cases slot <;> simp [Slot.HasStem, untracked]

/-- A diagnostic about a record, with a code that no slot tracks. -/
theorem Legible.diagnostic (legible : Legible blake3 repo) {owner code : String}
    (ownerUnbroken : Unbroken owner) (unbroken : Unbroken code)
    (untracked : code ≠ "github_review_unanchored" ∧ code ≠ "github_commit_unresolved")
    (notPull : ∀ number : Nat, code ≠ "pr:" ++ toString number) (subject : List String) (slot : Slot) :
    ¬ slot.Artifact blake3 repo
      (projectStableId blake3
        ("project" :: "Diagnostic" :: importerId :: owner :: code :: subject)) := by
  apply legible.unowned
  intro slot
  have notPull (number : Nat) : code ≠ "pr:" ++ number.repr := notPull number
  rw [stemOf_diagnostic ownerUnbroken unbroken, if_neg (by simp [untracked])]
  cases slot <;> simp [Slot.HasStem, notPull]

/-- A diagnostic about a pull request, with a code that no slot tracks. -/
theorem Legible.pullDiagnostic (legible : Legible blake3 repo) {code : String}
    (unbroken : Unbroken code) (untracked : code ≠ "github_commit_unresolved" ∧
      code ≠ "github_team_review_request_unexpanded") (number : Nat) (subject : List String)
    (slot : Slot) :
    ¬ slot.Artifact blake3 repo
      (projectStableId blake3 ("project" :: "Diagnostic" :: importerId :: repo ::
        ("pr:" ++ toString number) :: code :: subject)) := by
  apply legible.unowned
  intro slot
  rw [stemOf_pullDiagnostic legible.repo unbroken]
  cases slot <;> simp [Slot.HasStem, untracked]

end Unowned

section Carried

variable (blake3 : String → String) (repo : String)

/-- Records that write some artifacts of each slot, and no others; they delete nothing, and no node
of an account is an artifact. -/
structure Carries (records : List ImportRecord) (owns : Slot → String → Prop) : Prop where
  written : ∀ (slot : Slot) (id : String), slot.Artifact blake3 repo id →
    ((∃ record ∈ records, record.writes id = true) ↔ owns slot id)
  identities : ∀ record ∈ records, record.isIdentity = true →
    ∀ slot : Slot, ¬ slot.Artifact blake3 repo record.id
  additive : ∀ record ∈ records, ∀ id, record.deletes id = false

/-- A record that is no artifact and deletes nothing. -/
structure Foreign (record : ImportRecord) : Prop where
  unowned : ∀ slot : Slot, ¬ slot.Artifact blake3 repo record.id
  additive : ∀ id, record.deletes id = false

variable {blake3 repo} {records others : List ImportRecord} {owns owned : Slot → String → Prop}

/-- A record writes its own ID. -/
theorem ImportRecord.id_of_writes {record : ImportRecord} {id : String}
    (writes : record.writes id = true) : record.id = id := by
  cases record with
  | node record => exact of_decide_eq_true writes
  | edge record => exact of_decide_eq_true writes
  | tombstone record => simp [ImportRecord.writes] at writes

/-- Two lists of records carry what either carries. -/
theorem Carries.append (carries : Carries blake3 repo records owns)
    (carries' : Carries blake3 repo others owned) :
    Carries blake3 repo (records ++ others) fun slot id => owns slot id ∨ owned slot id where
  written := by
    intro slot id artifact
    simp only [List.mem_append, or_and_right, exists_or]
    exact or_congr (carries.written slot id artifact) (carries'.written slot id artifact)
  identities := by
    intro record member
    rcases List.mem_append.mp member with member | member
    · exact carries.identities record member
    · exact carries'.identities record member
  additive := by
    intro record member
    rcases List.mem_append.mp member with member | member
    · exact carries.additive record member
    · exact carries'.additive record member

/-- Only the owners of artifacts matter. -/
theorem Carries.congr (carries : Carries blake3 repo records owns)
    (same : ∀ (slot : Slot) (id : String), slot.Artifact blake3 repo id →
      (owns slot id ↔ owned slot id)) : Carries blake3 repo records owned where
  written slot id artifact := (carries.written slot id artifact).trans (same slot id artifact)
  identities := carries.identities
  additive := carries.additive

/-- Records that are foreign to every slot carry nothing. -/
theorem Carries.of_foreign (foreign : ∀ record ∈ records, Foreign blake3 repo record) :
    Carries blake3 repo records fun _ _ => False where
  written := by
    intro slot id artifact
    constructor
    · rintro ⟨record, member, writes⟩
      refine (foreign record member).unowned slot ?_
      rwa [record.id_of_writes writes]
    · exact False.elim
  identities record member _ := (foreign record member).unowned
  additive record member := (foreign record member).additive

/-- No record carries nothing. -/
theorem Carries.nil : Carries blake3 repo [] fun _ _ => False :=
  Carries.of_foreign (by simp)

/-- The records of some items carry what those of one item carry. -/
theorem Carries.flatMap {α : Type*} {items : List α} {emit : α → List ImportRecord}
    {owner : α → Slot → String → Prop}
    (carries : ∀ item ∈ items, Carries blake3 repo (emit item) (owner item)) :
    Carries blake3 repo (items.flatMap emit) fun slot id => ∃ item ∈ items, owner item slot id := by
  induction items with
  | nil => simpa using Carries.nil
  | cons item items ih =>
      rw [List.flatMap_cons]
      refine Carries.congr ((carries item List.mem_cons_self).append
        (ih fun item member => carries item (List.mem_cons_of_mem _ member))) ?_
      intro slot id _
      rw [List.exists_mem_cons_iff]

/-- Records of one slot carry the artifacts that they write. -/
theorem Carries.of_slot (legible : Legible blake3 repo) (slot : Slot)
    (artifacts : ∀ record ∈ records, slot.Artifact blake3 repo record.id ∧
      record.isIdentity = false ∧ (record.writes record.id = true) ∧ ∀ id, record.deletes id = false) :
    Carries blake3 repo records fun other id => other = slot ∧ ∃ record ∈ records, record.id = id where
  written := by
    intro other id artifact
    constructor
    · rintro ⟨record, member, writes⟩
      have same := record.id_of_writes writes
      exact ⟨legible.unique (same ▸ (artifacts record member).1) artifact, record, member, same⟩
    · rintro ⟨-, record, member, rfl⟩
      exact ⟨record, member, (artifacts record member).2.2.1⟩
  identities record member identity := by
    rw [(artifacts record member).2.1] at identity
    cases identity
  additive record member := (artifacts record member).2.2.2

end Carried

section Emitters

variable {blake3 : String → String} {ctx : Context}

/-- The edges to requested reviewers are those to users with a login. -/
theorem mem_requestedReviewEdgeIds {repo id : String} {pr : PullRequest} :
    id ∈ requestedReviewEdgeIds blake3 repo pr ↔ ∃ user ∈ pr.requestedReviewers, user.login ≠ "" ∧
      projectEdgeId blake3 .requestedReviewFrom (prTaskId blake3 repo pr.number)
        (externalIdentityId blake3 githubSystem user.login) = id := by
  rw [requestedReviewEdgeIds, Std.ExtTreeSet.mem_toList, Std.ExtTreeSet.mem_ofList]
  simp

/-- The diagnostics on requested teams are those on teams with a slug. -/
theorem mem_teamReviewDiagnosticIds {repo id : String} {pr : PullRequest} :
    id ∈ teamReviewDiagnosticIds blake3 repo pr ↔ ∃ team ∈ pr.requestedTeams, team.slug ≠ "" ∧
      teamReviewDiagnosticId blake3 repo pr.number team.slug = id := by
  rw [teamReviewDiagnosticIds, Std.ExtTreeSet.mem_toList, Std.ExtTreeSet.mem_ofList]
  simp

/-- The node of an account is no artifact. -/
theorem foreign_externalIdentityNode (legible : Legible blake3 ctx.sourceRepo) (login : String) :
    Foreign blake3 ctx.sourceRepo (.node (externalIdentityNode blake3 ctx login)) where
  unowned := legible.other (by decide) (by decide) (by decide) _
  additive _ := rfl

/-- A task with its links carries no artifact. -/
theorem carries_taskAndLink (legible : Legible blake3 ctx.sourceRepo) (sourceKind : String)
    (number : Nat) (nativeId title url updatedAt status : String) (labels : List Label)
    (assignees : List User) (author : Option String) (bodyHandle : OutputHandle)
    (prFields : PrTaskFields) :
    Carries blake3 ctx.sourceRepo (taskAndLink blake3 ctx sourceKind number nativeId title url updatedAt
      status labels assignees author bodyHandle prFields).records fun _ _ => False := by
  apply Carries.of_foreign
  intro record member
  simp only [taskAndLink, List.mem_cons, List.not_mem_nil, or_false] at member
  rcases member with rfl | rfl | rfl
  · exact ⟨legible.other (by decide) (by decide) (by decide) _, fun _ => rfl⟩
  · exact ⟨legible.other (by decide) (by decide) (by decide) _, fun _ => rfl⟩
  · exact ⟨legible.graph _, fun _ => rfl⟩

/-- The record of a landed merge is the one whose ID the importer remembers. -/
theorem resolveMergeCommit_id (blake3 : String → String) (ctx : Context) (pr : PullRequest) :
    (((landedSha pr).bind (resolveMergeCommit blake3 ctx (prTaskId blake3 ctx.sourceRepo pr.number)
      pr.number)).map Prod.fst).map ImportRecord.id =
        mergeArtifactId blake3 ctx.commitIndex ctx.sourceRepo pr := by
  rw [mergeArtifactId]
  cases landedSha pr with
  | none => rfl
  | some sha =>
      simp only [Option.bind_some, Option.bind_eq_bind, resolveMergeCommit]
      split
      · rfl
      · cases resolve ctx.commitIndex sha <;> rfl

/-- The merge commit of a pull request is an artifact of its merge slot. -/
theorem carries_mergeCommit (legible : Legible blake3 ctx.sourceRepo) (pr : PullRequest) :
    Carries blake3 ctx.sourceRepo
      (((landedSha pr).bind (resolveMergeCommit blake3 ctx
        (taskIdFor blake3 ctx.sourceRepo "pr" pr.number) pr.number)).map Prod.fst).toList
      fun slot id => slot = .merge pr.number ∧
        id ∈ mergeArtifactId blake3 ctx.commitIndex ctx.sourceRepo pr := by
  have ids := resolveMergeCommit_id blake3 ctx pr
  refine (Carries.of_slot legible (.merge pr.number) ?_).congr ?_
  · intro record member
    simp only [Option.mem_toList, Option.map_eq_some_iff, Option.bind_eq_some_iff] at member
    obtain ⟨⟨_, isDiagnostic⟩, ⟨sha, landed, resolved⟩, rfl⟩ := member
    rw [resolveMergeCommit] at resolved
    split at resolved
    · cases resolved
    · cases found : resolve ctx.commitIndex sha <;> rw [found] at resolved <;>
        simp only [Option.some.injEq, Prod.mk.injEq] at resolved <;>
        obtain ⟨rfl, -⟩ := resolved
      · exact ⟨Or.inl ⟨_, rfl⟩, rfl, decide_eq_true rfl, fun _ => rfl⟩
      · exact ⟨Or.inr ⟨_, rfl⟩, rfl, decide_eq_true rfl, fun _ => rfl⟩
      · exact ⟨Or.inr ⟨_, rfl⟩, rfl, decide_eq_true rfl, fun _ => rfl⟩
  · intro slot id artifact
    rw [← ids, Option.mem_def, Option.map_eq_some_iff]
    simp only [Option.mem_toList]
    rfl

/-- The review requests are artifacts of the request slots. -/
theorem carries_requestedReview (legible : Legible blake3 ctx.sourceRepo) (pr : PullRequest) :
    Carries blake3 ctx.sourceRepo
      (requestedReviewRecords blake3 ctx (taskIdFor blake3 ctx.sourceRepo "pr" pr.number) pr.number pr)
      fun slot id =>
        (slot = .requests pr.number ∧ id ∈ requestedReviewEdgeIds blake3 ctx.sourceRepo pr) ∨
          (slot = .teams pr.number ∧ id ∈ teamReviewDiagnosticIds blake3 ctx.sourceRepo pr) := by
  have requests : ∀ user ∈ pr.requestedReviewers, Carries blake3 ctx.sourceRepo
      (if user.login = "" then []
      else
        let identity := externalIdentityNode blake3 ctx user.login
        [.node identity, projectEdge blake3 .requestedReviewFrom
          (taskIdFor blake3 ctx.sourceRepo "pr" pr.number) identity.id
          ("PR #" ++ toString pr.number ++ " requested review from " ++ githubSystem ++ ":" ++
            user.login)])
      fun slot id => user.login ≠ "" ∧ slot = .requests pr.number ∧
        projectEdgeId blake3 .requestedReviewFrom (prTaskId blake3 ctx.sourceRepo pr.number)
          (externalIdentityId blake3 githubSystem user.login) = id := by
    intro user _
    by_cases empty : user.login = ""
    · rw [if_pos empty]
      exact Carries.nil.congr fun slot id _ => by simp [empty]
    · rw [if_neg empty]
      have identity : Carries blake3 ctx.sourceRepo
          [.node (externalIdentityNode blake3 ctx user.login)] fun _ _ => False :=
        Carries.of_foreign (by simpa using foreign_externalIdentityNode legible user.login)
      refine (identity.append (Carries.of_slot legible (.requests pr.number) ?_)).congr ?_
      · intro record member
        rw [List.mem_singleton] at member
        subst member
        exact ⟨⟨_, rfl⟩, rfl, decide_eq_true rfl, fun _ => rfl⟩
      · intro slot id artifact
        simp only [List.mem_singleton, exists_eq_left, false_or, empty, ne_eq, not_false_eq_true,
          true_and]
        rfl
  have teams : ∀ team ∈ pr.requestedTeams, Carries blake3 ctx.sourceRepo
      (if team.slug = "" then []
      else [.node (teamReviewDiagnostic blake3 ctx (taskIdFor blake3 ctx.sourceRepo "pr" pr.number)
        pr.number team.slug)])
      fun slot id => team.slug ≠ "" ∧ slot = .teams pr.number ∧
        teamReviewDiagnosticId blake3 ctx.sourceRepo pr.number team.slug = id := by
    intro team _
    by_cases empty : team.slug = ""
    · rw [if_pos empty]
      exact Carries.nil.congr fun slot id _ => by simp [empty]
    · rw [if_neg empty]
      refine (Carries.of_slot legible (.teams pr.number) ?_).congr ?_
      · intro record member
        rw [List.mem_singleton] at member
        subst member
        exact ⟨⟨_, rfl⟩, rfl, decide_eq_true rfl, fun _ => rfl⟩
      · intro slot id artifact
        simp only [List.mem_singleton, exists_eq_left, empty, ne_eq, not_false_eq_true, true_and]
        rfl
  rw [requestedReviewRecords]
  refine ((Carries.flatMap requests).append (Carries.flatMap teams)).congr ?_
  intro slot id _
  rw [mem_requestedReviewEdgeIds, mem_teamReviewDiagnosticIds]
  apply or_congr
  · constructor
    · rintro ⟨user, member, named, rfl, same⟩
      exact ⟨rfl, user, member, named, same⟩
    · rintro ⟨rfl, user, member, named, same⟩
      exact ⟨user, member, named, rfl, same⟩
  · constructor
    · rintro ⟨team, member, named, rfl, same⟩
      exact ⟨rfl, team, member, named, same⟩
    · rintro ⟨rfl, team, member, named, same⟩
      exact ⟨team, member, named, rfl, same⟩

/-- A pull request writes its own artifacts. -/
theorem carries_pullRecords (legible : Legible blake3 ctx.sourceRepo) (pr : PullRequest) :
    Carries blake3 ctx.sourceRepo (pullRecords blake3 ctx pr).records fun slot id =>
      (slot = .merge pr.number ∧ id ∈ mergeArtifactId blake3 ctx.commitIndex ctx.sourceRepo pr) ∨
        (slot = .requests pr.number ∧ id ∈ requestedReviewEdgeIds blake3 ctx.sourceRepo pr) ∨
          (slot = .teams pr.number ∧ id ∈ teamReviewDiagnosticIds blake3 ctx.sourceRepo pr) := by
  have author : Carries blake3 ctx.sourceRepo
      (((pr.user.map User.login).filter (· ≠ "")).toList.map fun login =>
        .node (externalIdentityNode blake3 ctx login)) fun _ _ => False := by
    apply Carries.of_foreign
    intro record member
    obtain ⟨login, -, rfl⟩ := List.mem_map.mp member
    exact foreign_externalIdentityNode legible login
  simp only [pullRecords, Emitted.records_extend, Emitted.records_push]
  refine Carries.congr ((((carries_taskAndLink legible _ _ _ _ _ _ _ _ _ _ _ _).append
    (carries_mergeCommit legible pr)).append (carries_requestedReview legible pr)).append author) ?_
  intro slot id _
  simp only [false_or, or_false]

/-- The records of an issue carry no artifact. -/
theorem carries_issueRecords (legible : Legible blake3 ctx.sourceRepo) (issue : Issue) :
    Carries blake3 ctx.sourceRepo (issueRecords blake3 ctx issue).records fun _ _ => False :=
  carries_taskAndLink legible _ _ _ _ _ _ _ _ _ _ _ _

/-- A review and its edges. -/
theorem carries_edgeAndPack (legible : Legible blake3 ctx.sourceRepo) {review : ProjectNode}
    {native : String} (isReview : review.id = reviewRecordId blake3 ctx.sourceRepo native)
    (parentTaskId : String) {touchesFile : Option ImportRecord}
    (touches : ∀ record ∈ touchesFile, Foreign blake3 ctx.sourceRepo record) :
    Carries blake3 ctx.sourceRepo (edgeAndPack blake3 review parentTaskId touchesFile).records
      fun _ _ => False := by
  apply Carries.of_foreign
  intro record member
  simp only [edgeAndPack, List.cons_append, List.nil_append, List.mem_cons,
    Option.mem_toList] at member
  rcases member with rfl | rfl | member
  · refine ⟨?_, fun _ => rfl⟩
    rw [ImportRecord.id, isReview]
    exact legible.other (by decide) (by decide) (by decide) _
  · exact ⟨legible.graph _, fun _ => rfl⟩
  · exact touches record member

/-- Nor does the author of a review. -/
theorem carries_reviewedByRecords (legible : Legible blake3 ctx.sourceRepo) (native : String)
    (author : Option String) :
    Carries blake3 ctx.sourceRepo
      (reviewedByRecords blake3 ctx (reviewRecordId blake3 ctx.sourceRepo native) author)
      fun _ _ => False := by
  apply Carries.of_foreign
  intro record member
  rw [reviewedByRecords] at member
  cases found : author.filter (· ≠ "") with
  | none => simp only [found, List.not_mem_nil] at member
  | some login =>
      simp only [found, List.mem_cons, List.not_mem_nil, or_false] at member
      rcases member with rfl | rfl
      · exact foreign_externalIdentityNode legible login
      · exact ⟨legible.edge (by decide) _ _, fun _ => rfl⟩

/-- The record of an anchor is the one whose ID the importer remembers. -/
theorem resolveReviewCommit_id (blake3 : String → String) (ctx : Context) {reviewKind : String}
    (anchored : reviewKindIsCommitAnchored reviewKind = true) (native : String)
    (commitId : Option String) :
    ((resolveReviewCommit blake3 ctx (reviewRecordId blake3 ctx.sourceRepo native) commitId).map
      Prod.fst).map ImportRecord.id =
        reviewArtifactId blake3 ctx.commitIndex ctx.sourceRepo native reviewKind commitId := by
  rw [resolveReviewCommit, reviewArtifactId, anchored, Bool.not_true, Bool.false_or]
  cases ctx.commitIndex.isEmpty with
  | true => rfl
  | false =>
      rw [if_neg (by simp), if_neg (by simp)]
      cases commitId.filter (· ≠ "") with
      | none => rfl
      | some sha =>
          simp only
          cases resolve ctx.commitIndex sha <;> rfl

/-- The commit of a review resolves to its anchor, or to the diagnostic in its place. -/
theorem isAnchor_resolveReviewCommit {reviewId : String} {commitId : Option String}
    {record : ImportRecord} {isDiagnostic : Bool}
    (resolved : resolveReviewCommit blake3 ctx reviewId commitId = some (record, isDiagnostic)) :
    IsAnchor blake3 reviewId record.id ∧ record.isIdentity = false ∧
      record.writes record.id = true ∧ ∀ id, record.deletes id = false := by
  rw [resolveReviewCommit] at resolved
  split at resolved
  · cases resolved
  · cases found : commitId.filter (· ≠ "") with
    | none =>
        simp only [found, Option.some.injEq, Prod.mk.injEq] at resolved
        obtain ⟨rfl, -⟩ := resolved
        exact ⟨Or.inr ⟨_, _, Or.inl rfl, rfl⟩, rfl, decide_eq_true rfl, fun _ => rfl⟩
    | some sha =>
        simp only [found] at resolved
        cases given : resolve ctx.commitIndex sha <;> rw [given] at resolved <;>
          simp only [Option.some.injEq, Prod.mk.injEq] at resolved <;>
          obtain ⟨rfl, -⟩ := resolved
        · exact ⟨Or.inl ⟨_, rfl⟩, rfl, decide_eq_true rfl, fun _ => rfl⟩
        · exact ⟨Or.inr ⟨_, _, Or.inr rfl, rfl⟩, rfl, decide_eq_true rfl, fun _ => rfl⟩
        · exact ⟨Or.inr ⟨_, _, Or.inr rfl, rfl⟩, rfl, decide_eq_true rfl, fun _ => rfl⟩

/-- The anchor of a review that a slot tracks. -/
theorem carries_anchor (legible : Legible blake3 ctx.sourceRepo) (slot : Slot) {reviewKind : String}
    (anchored : reviewKindIsCommitAnchored reviewKind = true) {native : String}
    (tracked : ∀ id, IsAnchor blake3 (reviewRecordId blake3 ctx.sourceRepo native) id →
      slot.Artifact blake3 ctx.sourceRepo id) (commitId : Option String) :
    Carries blake3 ctx.sourceRepo
      ((resolveReviewCommit blake3 ctx (reviewRecordId blake3 ctx.sourceRepo native) commitId).map
        Prod.fst).toList
      fun other id => other = slot ∧
        id ∈ reviewArtifactId blake3 ctx.commitIndex ctx.sourceRepo native reviewKind commitId := by
  have ids := resolveReviewCommit_id blake3 ctx anchored native commitId
  refine (Carries.of_slot legible slot ?_).congr ?_
  · intro record member
    rw [Option.mem_toList, Option.map_eq_some_iff] at member
    obtain ⟨⟨_, isDiagnostic⟩, resolved, rfl⟩ := member
    obtain ⟨anchor, rest⟩ := isAnchor_resolveReviewCommit resolved
    exact ⟨tracked _ anchor, rest⟩
  · intro other id artifact
    rw [← ids, Option.mem_def, Option.map_eq_some_iff]
    simp only [Option.mem_toList]

/-- A review writes its own anchor. -/
theorem carries_prReviewRecords (legible : Legible blake3 ctx.sourceRepo) (number : Nat)
    (review : Review) :
    Carries blake3 ctx.sourceRepo (prReviewRecords blake3 ctx number review).records fun slot id =>
      slot = .review number review.id ∧ id ∈ reviewArtifactId blake3 ctx.commitIndex ctx.sourceRepo
        (reviewNativeId "pr_review" number review.id) "pr_review" review.commitId := by
  have anchored : reviewKindIsCommitAnchored "pr_review" = true := rfl
  simp only [prReviewRecords, Emitted.records_extend, Emitted.records_push]
  refine Carries.congr (((carries_edgeAndPack legible rfl _ (by simp)).append
    (carries_anchor legible (.review number review.id) anchored (fun _ anchor => anchor)
      review.commitId)).append (carries_reviewedByRecords legible _ _)) ?_
  intro slot id _
  simp

/-- The links to files are no artifacts. -/
theorem foreign_resolveFileLink (legible : Legible blake3 ctx.sourceRepo) (native : String)
    (comment : ReviewComment) (record : ImportRecord) :
    (record ∈ (resolveFileLink blake3 ctx (reviewRecordId blake3 ctx.sourceRepo native) comment).1 ∨
      record ∈ (resolveFileLink blake3 ctx (reviewRecordId blake3 ctx.sourceRepo native) comment).2) →
      Foreign blake3 ctx.sourceRepo record := by
  have notPull (code : String) (rest : List Char) (named : code.toList = 'g' :: rest) (number : Nat) :
      code ≠ "pr:" ++ toString number := by
    intro same
    have chars := congrArg String.toList same
    rw [named] at chars
    simp at chars
  rw [resolveFileLink]
  cases comment.path with
  | none => simp
  | some path =>
      simp only
      cases resolve ctx.fileIndex path with
      | resolved fileId =>
          simp only [Option.mem_some_iff, Option.not_mem_none, or_false]
          rintro rfl
          exact ⟨legible.graph _, fun _ => rfl⟩
      | ambiguous count =>
          simp only [Option.mem_some_iff, Option.not_mem_none, false_or]
          rintro rfl
          exact ⟨legible.diagnostic (legible.project _) (by decide) (by decide) (notPull _ _ rfl) _,
            fun _ => rfl⟩
      | unresolved =>
          simp only [Option.mem_some_iff, Option.not_mem_none, false_or]
          rintro rfl
          exact ⟨legible.diagnostic (legible.project _) (by decide) (by decide) (notPull _ _ rfl) _,
            fun _ => rfl⟩

/-- The anchor of a review comment, which it has when its pull request has a number. -/
def commentArtifacts (blake3 : String → String) (commitIndex : StrMap (List String)) (repo : String)
    (comment : ReviewComment) : List String :=
  ((ImportPass.commentNative comment).bind fun native =>
    reviewArtifactId blake3 commitIndex repo native "pr_review_comment" comment.commitId).toList

/-- A review comment writes its own anchor. -/
theorem carries_reviewCommentRecords (legible : Legible blake3 ctx.sourceRepo)
    (comment : ReviewComment) :
    Carries blake3 ctx.sourceRepo (reviewCommentRecords blake3 ctx comment).records fun slot id =>
      slot = .comment comment.id ∧
        id ∈ commentArtifacts blake3 ctx.commitIndex ctx.sourceRepo comment := by
  have anchored : reviewKindIsCommitAnchored "pr_review_comment" = true := rfl
  rw [reviewCommentRecords, commentArtifacts, ImportPass.commentNative]
  cases trailingNumber comment.pullRequestUrl with
  | none => exact Carries.nil.congr fun slot id _ => by simp
  | some number =>
      have touches := foreign_resolveFileLink legible
        (reviewNativeId "pr_review_comment" number comment.id) comment
      have unlinked : Carries blake3 ctx.sourceRepo
          (((resolveFileLink blake3 ctx (reviewRecordId blake3 ctx.sourceRepo
            (reviewNativeId "pr_review_comment" number comment.id)) comment).2.map
              fun record => (record, true)).map Prod.fst).toList fun _ _ => False := by
        apply Carries.of_foreign
        intro record member
        rw [Option.map_map, Option.mem_toList, Option.map_eq_some_iff] at member
        obtain ⟨_, link, rfl⟩ := member
        exact touches _ (Or.inr link)
      simp only [Emitted.records_extend, Emitted.records_push]
      refine Carries.congr ((((carries_edgeAndPack legible rfl _ fun record link =>
        touches record (Or.inl link)).append unlinked).append
          (carries_anchor legible (.comment comment.id) anchored
            (fun _ anchor => ⟨number, anchor⟩) comment.commitId)).append
              (carries_reviewedByRecords legible _ _)) ?_
      intro slot id _
      simp

/-- The records of a comment on an issue carry no artifact. -/
theorem carries_issueCommentRecords (legible : Legible blake3 ctx.sourceRepo)
    (comment : IssueComment) :
    Carries blake3 ctx.sourceRepo (issueCommentRecords blake3 ctx comment).records
      fun _ _ => False := by
  rw [issueCommentRecords]
  cases trailingNumber comment.issueUrl with
  | none => exact Carries.nil
  | some number =>
      simp only [Emitted.records_extend]
      refine Carries.congr ((carries_edgeAndPack legible rfl _ (by simp)).append
        (carries_reviewedByRecords legible _ _)) ?_
      intro slot id _
      simp

/-- Nothing of a timeline is an artifact. -/
theorem carries_timelineUnparseable (legible : Legible blake3 ctx.sourceRepo) (number eventId : Nat)
    (eventKind detail : String) :
    Carries blake3 ctx.sourceRepo
      (timelineUnparseable blake3 ctx number eventId eventKind detail).records fun _ _ => False := by
  apply Carries.of_foreign
  intro record member
  rw [timelineUnparseable, List.mem_singleton] at member
  subst member
  exact ⟨legible.pullDiagnostic (by decide) (by decide) number _, fun _ => rfl⟩

/-- Nor do those of a timeline event. -/
theorem carries_timelineTransitionRecords (legible : Legible blake3 ctx.sourceRepo) (number : Nat)
    (event : TimelineEvent) (presentReviewIds : List Nat) :
    Carries blake3 ctx.sourceRepo
      (timelineTransitionRecords blake3 ctx number event presentReviewIds).records
      fun _ _ => False := by
  have transition : ∀ message, Foreign blake3 ctx.sourceRepo
      (.node (reviewStateTransitionNode blake3 ctx number event message)) := fun message =>
    ⟨legible.other (by decide) (by decide) (by decide) _, fun _ => rfl⟩
  rw [timelineTransitionRecords]
  split
  · exact Carries.nil
  · split
    · exact carries_timelineUnparseable legible _ _ _ _
    · split
      · cases event.dismissedReview.filter (·.reviewId ≠ 0) with
        | none => exact carries_timelineUnparseable legible _ _ _ _
        | some dismissed =>
            simp only
            split
            · apply Carries.of_foreign
              intro record member
              simp only [List.mem_cons, List.not_mem_nil, or_false] at member
              rcases member with rfl | rfl
              · exact transition _
              · exact ⟨legible.pullDiagnostic (by decide) (by decide) number _, fun _ => rfl⟩
            · apply Carries.of_foreign
              intro record member
              simp only [List.mem_cons, List.not_mem_nil, or_false] at member
              rcases member with rfl | rfl
              · exact transition _
              · exact ⟨legible.edge (by decide) _ _, fun _ => rfl⟩
      · apply Carries.of_foreign
        intro record member
        rw [List.mem_singleton] at member
        subst member
        exact transition none

/-- Nor does the record of the import itself. -/
theorem foreign_handoffRecord (legible : Legible blake3 ctx.sourceRepo) (emitted : Nat) :
    Foreign blake3 ctx.sourceRepo (ImportPass.handoffRecord blake3 ctx emitted) where
  unowned := by
    apply legible.diagnostic legible.repo (by decide) (by decide)
    intro number same
    have chars := congrArg String.toList same
    simp at chars
  additive _ := rfl

end Emitters

section Payloads

variable {readers : Readers}

/-- The resource of a slot. -/
def Slot.resource : Slot → Resource
  | .merge number => .pull number
  | .requests number => .pull number
  | .teams number => .pull number
  | .comment id => .reviewComment id
  | .review number id => .review number id

namespace Payload

/-- The slots of a payload. -/
def slots : Payload readers → List Slot
  | .pull pr => [.merge pr.number, .requests pr.number, .teams pr.number]
  | .reviewComment comment => [.comment comment.value.id]
  | .review number summary => [.review number summary.value.id]
  | _ => []

/-- The artifacts that a payload has for a slot. -/
def derived (blake3 : String → String) (commitIndex : StrMap (List String)) (repo : String) :
    Payload readers → Slot → List String
  | .pull pr, .merge _ => (mergeArtifactId blake3 commitIndex repo pr).toList
  | .pull pr, .requests _ => requestedReviewEdgeIds blake3 repo pr
  | .pull pr, .teams _ => teamReviewDiagnosticIds blake3 repo pr
  | .reviewComment comment, .comment _ => commentArtifacts blake3 commitIndex repo comment.value
  | .review number summary, .review _ _ =>
      (reviewArtifactId blake3 commitIndex repo
        (reviewNativeId "pr_review" number summary.value.id) "pr_review" summary.value.commitId).toList
  | _, _ => []

/-- A payload retracts what it drops, except for a review comment whose pull request has no
number. -/
def retracts : Payload readers → Bool
  | .reviewComment comment => (ImportPass.commentNative comment.value).isSome
  | _ => true

/-- What the delivery of a payload derives for a slot. -/
def derivations (blake3 : String → String) (commitIndex : StrMap (List String)) (repo : String)
    (payload : Payload readers) (slot : Slot) : List (Derivation String) :=
  if slot ∈ payload.slots then
    [{ artifacts := payload.derived blake3 commitIndex repo slot
       retracts := payload.retracts }]
  else []

variable {blake3 : String → String} {ctx : Context} {payload : Payload readers} {slot : Slot}

/-- The slots of a payload belong to its own resource. -/
theorem resource_of_slot (isSlot : slot ∈ payload.slots) : slot.resource = payload.resource := by
  cases payload with
  | pull pr =>
      simp only [slots, List.mem_cons, List.not_mem_nil, or_false] at isSlot
      rcases isSlot with rfl | rfl | rfl <;> rfl
  | reviewComment comment =>
      rw [slots, List.mem_singleton] at isSlot
      subst isSlot
      rfl
  | review number summary =>
      rw [slots, List.mem_singleton] at isSlot
      subst isSlot
      rfl
  | _ => simp [slots] at isSlot

/-- A payload of the resource of a slot has the slot. -/
theorem mem_slots_iff : slot ∈ payload.slots ↔ slot.resource = payload.resource := by
  refine ⟨resource_of_slot, fun same => ?_⟩
  cases payload <;> cases slot <;> simp_all [slots, Slot.resource, resource]

/-- What a payload derives are artifacts of its slots. -/
theorem artifact_of_derived {commitIndex : StrMap (List String)} {repo id : String}
    (isSlot : slot ∈ payload.slots) (derived : id ∈ payload.derived blake3 commitIndex repo slot) :
    slot.Artifact blake3 repo id := by
  have anchor : ∀ {native reviewKind : String} {commitId : Option String},
      id ∈ reviewArtifactId blake3 commitIndex repo native reviewKind commitId →
        IsAnchor blake3 (reviewRecordId blake3 repo native) id := by
    intro native reviewKind commitId found
    rw [reviewArtifactId] at found
    split at found
    · cases found
    · cases given : commitId.filter (· ≠ "") with
      | none =>
          simp only [given, Option.mem_some_iff] at found
          exact Or.inr ⟨_, _, Or.inl rfl, found.symm⟩
      | some sha =>
          simp only [given] at found
          cases resolved : resolve commitIndex sha <;>
            simp only [resolved, Option.mem_some_iff] at found
          · exact Or.inl ⟨_, found.symm⟩
          · exact Or.inr ⟨_, _, Or.inr rfl, found.symm⟩
          · exact Or.inr ⟨_, _, Or.inr rfl, found.symm⟩
  cases payload with
  | pull pr =>
      simp only [slots, List.mem_cons, List.not_mem_nil, or_false] at isSlot
      rcases isSlot with rfl | rfl | rfl
      · rw [Payload.derived, Option.mem_toList, mergeArtifactId, Option.bind_eq_bind,
          Option.bind_eq_some_iff] at derived
        obtain ⟨sha, -, found⟩ := derived
        split at found
        · cases found
        · cases resolved : resolve commitIndex sha <;>
            simp only [resolved, Option.some.injEq] at found
          · exact Or.inl ⟨_, found.symm⟩
          · exact Or.inr ⟨_, found.symm⟩
          · exact Or.inr ⟨_, found.symm⟩
      · obtain ⟨user, -, -, same⟩ := mem_requestedReviewEdgeIds.mp derived
        exact ⟨_, same.symm⟩
      · obtain ⟨team, -, -, same⟩ := mem_teamReviewDiagnosticIds.mp derived
        exact ⟨_, same.symm⟩
  | reviewComment comment =>
      rw [slots, List.mem_singleton] at isSlot
      subst isSlot
      rw [Payload.derived, commentArtifacts, Option.mem_toList, Option.bind_eq_some_iff] at derived
      obtain ⟨native, isNative, found⟩ := derived
      rw [ImportPass.commentNative, Option.map_eq_some_iff] at isNative
      obtain ⟨number, -, rfl⟩ := isNative
      exact ⟨number, anchor found⟩
  | review number summary =>
      rw [slots, List.mem_singleton] at isSlot
      subst isSlot
      exact anchor (Option.mem_toList.mp derived)
  | _ => simp [slots] at isSlot

/-- A payload derives for each of its slots the artifacts of that slot. -/
theorem mem_derivations {commitIndex : StrMap (List String)} {repo id : String} :
    (∃ derivation ∈ payload.derivations blake3 commitIndex repo slot, id ∈ derivation.artifacts) ↔
      slot ∈ payload.slots ∧ id ∈ payload.derived blake3 commitIndex repo slot := by
  rw [derivations]
  split
  · next isSlot => simp [isSlot]
  · next notSlot => simp [notSlot]

/-- A payload writes what it derives. -/
theorem carries_emitted (legible : Legible blake3 ctx.sourceRepo) :
    Carries blake3 ctx.sourceRepo (payload.emitted blake3 ctx).records fun slot id =>
      slot ∈ payload.slots ∧ id ∈ payload.derived blake3 ctx.commitIndex ctx.sourceRepo slot := by
  cases payload with
  | issue opened => exact (carries_issueRecords legible opened).congr fun _ _ _ => by simp [slots]
  | pull pr =>
      refine (carries_pullRecords legible pr).congr fun slot id _ => ?_
      cases slot <;> simp [slots, derived]
  | issueComment comment =>
      exact (carries_issueCommentRecords legible comment.value).congr fun _ _ _ => by simp [slots]
  | reviewComment comment =>
      refine (carries_reviewCommentRecords legible comment.value).congr fun slot id _ => ?_
      cases slot <;> simp [slots, derived]
  | review number summary =>
      refine (carries_prReviewRecords legible number summary.value).congr fun slot id _ => ?_
      cases slot <;> simp [slots, derived]

/-- Merges that resolve alike have one artifact. -/
theorem mergeArtifactId_of_marker {commitIndex other : StrMap (List String)} {pr next : PullRequest}
    (repo : String) (number : pr.number = next.number) (landed : landedSha pr = landedSha next)
    (markers : mergeResolutionMarker commitIndex pr = mergeResolutionMarker other next) :
    mergeArtifactId blake3 commitIndex repo pr = mergeArtifactId blake3 other repo next := by
  rw [mergeResolutionMarker, mergeResolutionMarker, landed] at markers
  rw [mergeArtifactId, mergeArtifactId, landed, number]
  cases given : landedSha next with
  | none => rfl
  | some sha =>
      simp only [given] at markers
      obtain ⟨empty, resolved⟩ := resolve_of_marker markers
      simp only [Option.bind_eq_bind, Option.bind_some, empty]
      cases seeded : other.isEmpty with
      | true => rfl
      | false => rw [resolved (empty.trans seeded)]

/-- Anchors that resolve alike are one artifact. -/
theorem reviewArtifactId_of_marker {commitIndex other : StrMap (List String)} {reviewKind : String}
    (anchored : reviewKindIsCommitAnchored reviewKind = true) (repo native : String)
    {commitId : Option String} (markers : reviewCommitMarker commitIndex reviewKind commitId =
      reviewCommitMarker other reviewKind commitId) :
    reviewArtifactId blake3 commitIndex repo native reviewKind commitId =
      reviewArtifactId blake3 other repo native reviewKind commitId := by
  rw [reviewCommitMarker, reviewCommitMarker, anchored, Bool.not_true, Bool.false_or,
    Bool.false_or] at markers
  rw [reviewArtifactId, reviewArtifactId, anchored, Bool.not_true, Bool.false_or, Bool.false_or]
  cases given : commitId.filter (· ≠ "") with
  | none =>
      simp only [given] at markers
      cases empty : commitIndex.isEmpty <;> cases empty' : other.isEmpty <;>
        simp [empty, empty'] at markers ⊢
  | some sha =>
      simp only [given] at markers
      obtain ⟨empty, resolved⟩ := resolve_of_marker markers
      rw [← empty]
      cases seeded : commitIndex.isEmpty with
      | true => rfl
      | false =>
          rw [if_neg (by simp), if_neg (by simp)]
          simp only [resolved seeded]

/-- What a hash covers decides the artifacts. -/
theorem derived_of_hash (injective : Function.Injective blake3)
    (plain : ∀ text, '\x01' ∉ (blake3 text).toList) {context : Context} (repo : String)
    {recorded delivered : Payload readers} (resource : recorded.resource = delivered.resource)
    (hashes : recorded.hash blake3 context = delivered.hash blake3 ctx) (slot : Slot) :
    recorded.derived blake3 context.commitIndex repo slot =
      delivered.derived blake3 ctx.commitIndex repo slot := by
  cases recorded with
  | issue opened => cases delivered <;> simp_all [Payload.resource, derived]
  | pull pr =>
      cases delivered with
      | pull other =>
          have keys := pullKey_of_pullHash injective hashes
          simp only [pullKey, JsonValue.object.injEq, List.cons.injEq, Prod.mk.injEq, true_and,
            and_true, JsonValue.number.injEq, JsonValue.string.injEq, jsonText_inj,
            jsonTexts_inj] at keys
          obtain ⟨number, -, -, -, -, -, -, -, -, mergedAt, -, -, -, -, mergeCommitSha, marker,
            reviewers, teams, -⟩ := keys
          have reviewers : pr.requestedReviewers = other.requestedReviewers :=
            List.map_injective_iff.mpr (fun _ _ same => User.ext same) reviewers
          have teams : pr.requestedTeams = other.requestedTeams :=
            List.map_injective_iff.mpr (fun _ _ same => Team.ext same) teams
          have landed : landedSha pr = landedSha other := by
            rw [landedSha, landedSha, mergedAt, mergeCommitSha]
          cases slot with
          | merge _ =>
              simp only [derived]
              rw [mergeArtifactId_of_marker repo number landed marker]
          | requests _ =>
              simp only [derived, requestedReviewEdgeIds]
              rw [reviewers, number]
          | teams _ =>
              simp only [derived, teamReviewDiagnosticIds]
              rw [teams, number]
          | _ => rfl
      | _ => simp [Payload.resource] at resource
  | issueComment comment => cases delivered <;> simp_all [Payload.resource, derived]
  | reviewComment comment =>
      cases delivered with
      | reviewComment other =>
          obtain ⟨items, markers⟩ := parts_of_reviewHash injective plain hashes
          have values := Parsed.value_eq items
          rw [← values] at markers
          cases slot with
          | comment _ =>
              simp only [derived, commentArtifacts, ← values]
              congr 2
              funext native
              exact reviewArtifactId_of_marker rfl repo native markers
          | _ => rfl
      | _ => simp [Payload.resource] at resource
  | review number summary =>
      cases delivered with
      | review other summary' =>
          obtain ⟨items, markers⟩ := parts_of_reviewHash injective plain hashes
          have values := Parsed.value_eq items
          rw [← values] at markers
          simp only [Payload.resource, Resource.review.injEq] at resource
          cases slot with
          | review _ _ =>
              simp only [derived, ← values, ← resource.1]
              rw [reviewArtifactId_of_marker rfl repo _ markers]
          | _ => rfl
      | _ => simp [Payload.resource] at resource

end Payload

end Payloads

end Egregore.Github
