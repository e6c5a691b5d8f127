import Egregore.Github.Reviews

/-!
# Import state

`github/state.rs`: what an import remembers of the resources it has seen, and the hashes
that tell whether one of them changed.
-/

namespace Egregore.Github

open Base

/-- `State`: the hash of each resource, and the artifacts that its records include. -/
structure State where
  resourceHashes : StrMap String := ∅
  prMergeArtifacts : StrMap String := ∅
  reviewCommitArtifacts : StrMap String := ∅
  prRequestEdges : StrMap (List String) := ∅
  prTeamDiagnostics : StrMap (List String) := ∅

namespace State

/-- `is_unchanged`. -/
def isUnchanged (state : State) (key hash : String) : Bool := state.resourceHashes[key]? = some hash

/-- `record_hash`. -/
def recordHash (state : State) (key hash : String) : State :=
  { state with resourceHashes := state.resourceHashes.insert key hash }

/-- Records an artifact under a key, or clears the key. -/
def setArtifact (artifacts : StrMap String) (key : String) : Option String → StrMap String
  | some id => artifacts.insert key id
  | none => artifacts.erase key

/-- Records the artifacts of a key; no artifacts clear it. -/
def setArtifacts (artifacts : StrMap (List String)) (key : String) :
    List String → StrMap (List String)
  | [] => artifacts.erase key
  | ids => artifacts.insert key ids

/-- `set_merge_artifact`. -/
def setMergeArtifact (state : State) (key : String) (id : Option String) : State :=
  { state with prMergeArtifacts := setArtifact state.prMergeArtifacts key id }

/-- `set_review_artifact`. -/
def setReviewArtifact (state : State) (key : String) (id : Option String) : State :=
  { state with reviewCommitArtifacts := setArtifact state.reviewCommitArtifacts key id }

/-- `set_request_edges`. -/
def setRequestEdges (state : State) (key : String) (ids : List String) : State :=
  { state with prRequestEdges := setArtifacts state.prRequestEdges key ids }

/-- `set_team_diagnostics`. -/
def setTeamDiagnostics (state : State) (key : String) (ids : List String) : State :=
  { state with prTeamDiagnostics := setArtifacts state.prTeamDiagnostics key ids }

/-- `prior_merge_artifact`. -/
def priorMergeArtifact (state : State) (key : String) : Option String :=
  state.prMergeArtifacts[key]?

/-- `prior_review_artifact`. -/
def priorReviewArtifact (state : State) (key : String) : Option String :=
  state.reviewCommitArtifacts[key]?

/-- `prior_request_edges`. -/
def priorRequestEdges (state : State) (key : String) : List String :=
  state.prRequestEdges[key]?.getD []

/-- `prior_team_diagnostics`. -/
def priorTeamDiagnostics (state : State) (key : String) : List String :=
  state.prTeamDiagnostics[key]?.getD []

end State

section Hashes

variable (blake3 : String → String)

/-- A JSON array of texts. -/
def jsonTexts (texts : List String) : JsonValue := .array (texts.map .string)

/-- The fields of an issue that its hash covers. -/
def issueKey (issue : Issue) : JsonValue :=
  .object [
    ("number", .number issue.number),
    ("state", .string issue.state),
    ("state_reason", jsonText issue.stateReason),
    ("title", .string issue.title),
    ("body", jsonText issue.body),
    ("labels", jsonTexts (issue.labels.map Label.name)),
    ("assignees", jsonTexts (issue.assignees.map User.login)),
    ("milestone", jsonText (issue.milestone.map Milestone.title)),
    ("updated_at", .string issue.updatedAt),
    ("closed_at", jsonText issue.closedAt)]

/-- `issue_hash`. -/
def issueHash (issue : Issue) : String := blake3 (issueKey issue).text

/-- The fields of a pull request that its hash covers. -/
def pullKey (pr : PullRequest) (mergeLinkMarker : String) : JsonValue :=
  .object [
    ("number", .number pr.number),
    ("state", .string pr.state),
    ("title", .string pr.title),
    ("body", jsonText pr.body),
    ("labels", jsonTexts (pr.labels.map Label.name)),
    ("assignees", jsonTexts (pr.assignees.map User.login)),
    ("milestone", jsonText (pr.milestone.map Milestone.title)),
    ("updated_at", .string pr.updatedAt),
    ("closed_at", jsonText pr.closedAt),
    ("merged_at", jsonText pr.mergedAt),
    ("draft", .bool pr.draft),
    ("head_sha", jsonText (pr.head.map GitRef.sha)),
    ("head_ref", jsonText (pr.head.map GitRef.refName)),
    ("base_ref", jsonText (pr.base.map GitRef.refName)),
    ("merge_commit_sha", jsonText pr.mergeCommitSha),
    ("merge_link", .string mergeLinkMarker),
    ("requested_reviewers", jsonTexts (pr.requestedReviewers.map User.login)),
    ("requested_teams", jsonTexts (pr.requestedTeams.map Team.slug)),
    ("author", jsonText (pr.user.map User.login))]

/-- `pull_hash`. -/
def pullHash (pr : PullRequest) (mergeLinkMarker : String) : String :=
  blake3 (pullKey pr mergeLinkMarker).text

/-- `review_hash`. -/
def reviewHash (payloadHash reviewMarker : String) : String :=
  blake3 (payloadHash ++ "\x01" ++ reviewMarker)

end Hashes

section Payloads

/-- An item of a response, with its JSON text, that a deserializer reads. -/
structure Parsed {α : Type} (read : String → Option α) where
  item : String
  value : α
  isRead : read item = some value

/-- The deserializers of the items of which the importer hashes the whole text. -/
structure Readers where
  issueComment : String → Option IssueComment
  reviewComment : String → Option ReviewComment
  review : String → Option Review

/-- A payload of a resource. A review comes from the list of its pull request. -/
inductive Payload (readers : Readers) where
  | issue (issue : Issue)
  | pull (pr : PullRequest)
  | issueComment (comment : Parsed readers.issueComment)
  | reviewComment (comment : Parsed readers.reviewComment)
  | review (number : Nat) (review : Parsed readers.review)

/-- The resource of a payload. -/
inductive Resource where
  | issue (number : Nat)
  | pull (number : Nat)
  | issueComment (id : Nat)
  | reviewComment (id : Nat)
  | review (number id : Nat)
  deriving DecidableEq, Repr

/-- The key of a resource in the state. -/
def Resource.key : Resource → String
  | .issue number => "issue:" ++ toString number
  | .pull number => "pr:" ++ toString number
  | .issueComment id => "issue_comment:" ++ toString id
  | .reviewComment id => "pr_review_comment:" ++ toString id
  | .review number id => "pr_review:" ++ toString number ++ ":" ++ toString id

namespace Payload

variable (blake3 : String → String) {readers : Readers}

/-- The resource that a payload is of. -/
def resource : Payload readers → Resource
  | .issue opened => .issue opened.number
  | .pull pr => .pull pr.number
  | .issueComment comment => .issueComment comment.value.id
  | .reviewComment comment => .reviewComment comment.value.id
  | .review number summary => .review number summary.value.id

/-- The hash of a payload against the seeded graph. -/
def hash (ctx : Context) : Payload readers → String
  | .issue opened => issueHash blake3 opened
  | .pull pr => pullHash blake3 pr (mergeResolutionMarker ctx.commitIndex pr)
  | .issueComment comment => blake3 comment.item
  | .reviewComment comment =>
      reviewHash blake3 (blake3 comment.item)
        (reviewCommitMarker ctx.commitIndex "pr_review_comment" comment.value.commitId)
  | .review _ summary =>
      reviewHash blake3 (blake3 summary.item)
        (reviewCommitMarker ctx.commitIndex "pr_review" summary.value.commitId)

/-- The records of a payload. -/
def emitted (ctx : Context) : Payload readers → Emitted
  | .issue opened => issueRecords blake3 ctx opened
  | .pull pr => pullRecords blake3 ctx pr
  | .issueComment comment => issueCommentRecords blake3 ctx comment.value
  | .reviewComment comment => reviewCommentRecords blake3 ctx comment.value
  | .review number summary => prReviewRecords blake3 ctx number summary.value

end Payload

end Payloads

end Egregore.Github
