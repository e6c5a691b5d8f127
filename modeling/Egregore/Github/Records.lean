import Egregore.Base.JsonText
import Egregore.Base.OrderedMap
import Egregore.Github.Model
import Egregore.Incremental
import Egregore.SchemaVersion

/-!
# GitHub records

`github/records.rs`: the project records of issues, pull requests, comments and reviews.
The hash is a parameter.
-/

namespace Egregore.Github

open Base

section Records

/-- `OutputHandle`. -/
structure OutputHandle where
  inline : Option String
  hash : String
  bytes : Nat
  deriving DecidableEq, Repr

/-- `SourceSpan`. -/
structure SourceSpan where
  startLine : Nat
  endLine : Nat
  startByte : Nat
  endByte : Nat
  startColumn : Option Nat
  endColumn : Option Nat
  deriving DecidableEq, Repr

/-- A node of the project domain: the fields of `GraphRecord::Node` that the importer sets. -/
structure ProjectNode where
  id : String
  kind : NodeKind
  schemaVersion : Nat
  repoRelativePath : Option String := none
  span : Option SourceSpan := none
  name : Option String := none
  summary : String
  domain : Option String := none
  entityId : Option String := none
  validTime : Option String := none
  validTimeSource : Option String := none
  transactionTime : Option String := none
  importerId : Option String := none
  importerVersion : Option String := none
  redactionPolicyVersion : Option String := none
  title : Option String := none
  bodyHandle : Option OutputHandle := none
  status : Option String := none
  sourceKind : Option String := none
  sourceExternalLinkId : Option String := none
  assignees : Option (List String) := none
  labels : Option (List String) := none
  priority : Option String := none
  author : Option String := none
  headSha : Option String := none
  headRef : Option String := none
  baseRef : Option String := none
  mergeCommitSha : Option String := none
  mergedAt : Option String := none
  draft : Option Bool := none
  system : Option String := none
  url : Option String := none
  systemNativeId : Option String := none
  discoveredAt : Option String := none
  repositoryRemote : Option String := none
  reviewKind : Option String := none
  parentTaskId : Option String := none
  reviewState : Option String := none
  inReplyToId : Option String := none
  diffHunkHandle : Option OutputHandle := none
  reviewSide : Option String := none
  reviewCommitSha : Option String := none
  identitySystem : Option String := none
  transitionKind : Option String := none
  deriving DecidableEq, Repr

/-- A record of an import. -/
inductive ImportRecord where
  | node (record : ProjectNode)
  | edge (record : EdgeRecord)
  | tombstone (record : TombstoneRecord)
  deriving DecidableEq, Repr

/-- The record ID. -/
def ImportRecord.id : ImportRecord → String
  | .node record => record.id
  | .edge record => record.id
  | .tombstone record => record.id

/-- `Emitted`: the records of a resource, and how many of them diagnose a missing link. -/
structure Emitted where
  records : List ImportRecord := []
  linkDiagnostics : Nat := 0
  deriving DecidableEq, Repr

/-- `Context`, what the records of one run share. -/
structure Context where
  sourceRepo : String
  transactionTime : String
  redact : String → String
  fileIndex : StrMap (List String)
  commitIndex : StrMap (List String)

/-- What an index of the seeded code graph holds under a key. -/
inductive Resolution where
  | resolved (id : String)
  | ambiguous (count : Nat)
  | unresolved
  deriving DecidableEq, Repr

/-- The one record under a key, how many there are, or none. -/
def resolve (index : StrMap (List String)) (key : String) : Resolution :=
  match index[key]? with
  | some [id] => .resolved id
  | some ids => if 1 < ids.length then .ambiguous ids.length else .unresolved
  | none => .unresolved

/-- The text of a resolution in a change marker. -/
def Resolution.marker : Resolution → String
  | .resolved id => "resolved:" ++ id
  | .ambiguous count => "ambiguous:" ++ toString count
  | .unresolved => "unresolved"

end Records

section Ids

variable (blake3 : String → String)

/-- The text that a stable ID hashes: each part is closed by a NUL. -/
def hashedParts (parts : List String) : String := String.join (parts.map (· ++ "\x00"))

/-- `stable_id`. -/
def stableId (parts : List String) : String :=
  "codegraph:v" ++ toString schemaVersion ++ ":" ++ blake3 (hashedParts parts)

/-- `project_stable_id`. -/
def projectStableId (parts : List String) : String :=
  "project:v" ++ toString projectSchemaVersion ++ ":" ++ blake3 (hashedParts parts)

/-- `GraphRecord::node`. -/
def graphNode (id : String) (kind : NodeKind) (repoRelativePath name : Option String)
    (summary : String) : ProjectNode where
  id := id
  kind := kind
  schemaVersion := schemaVersion
  repoRelativePath := repoRelativePath
  name := name
  summary := summary

/-- `GraphRecord::edge`. -/
def graphEdge (label : EdgeLabel) (source target summary : String) : ImportRecord :=
  .edge {
    id := stableId blake3 ["edge", label.asStr, source, target]
    schemaVersion := schemaVersion
    label := label
    source := source
    target := target
    summary := summary }

/-- The ID of `GraphRecord::project_edge`. -/
def projectEdgeId (label : EdgeLabel) (source target : String) : String :=
  projectStableId blake3 ["project", "edge", label.asStr, source, target]

/-- `GraphRecord::project_edge`. -/
def projectEdge (label : EdgeLabel) (source target summary : String) : ImportRecord :=
  .edge {
    id := projectEdgeId blake3 label source target
    schemaVersion := projectSchemaVersion
    label := label
    source := source
    target := target
    summary := summary }

def importerId : String := "github"
def importerVersion : String := "0.1.0"
def projectDomain : String := "project"
def sourceKindIssue : String := "github_issue"
def sourceKindPr : String := "github_pr"
def sourceKindReview : String := "github_review"
def githubSystem : String := "github"

/-- `INLINE_CEILING`, in bytes. -/
def inlineCeiling : Nat := 16 * 1024

/-- The ID of the `Task` of an issue or pull request. -/
def taskIdFor (sourceRepo kind : String) (number : Nat) : String :=
  projectStableId blake3
    ["project", "Task", sourceRepo, toString number, kind ++ ":" ++ toString number]

/-- `pr_task_id`. -/
def prTaskId (sourceRepo : String) (number : Nat) : String := taskIdFor blake3 sourceRepo "pr" number

/-- `review_record_id`; the number is the second segment of the native ID. -/
def reviewRecordId (sourceRepo nativeId : String) : String :=
  let number := ((nativeId.toList.splitOn ':')[1]?).elim "0" String.ofList
  projectStableId blake3 ["project", "Review", sourceRepo, number, nativeId]

/-- `external_identity_id`. -/
def externalIdentityId (system login : String) : String :=
  projectStableId blake3 ["project", "ExternalIdentity", system, login]

end Ids

section Fields

variable (blake3 : String → String)

/-- `redact_lines`. -/
def redactLines (redact : String → String) (text : String) : String :=
  "\n".intercalate ((text.toList.splitOn '\n').map fun line => redact (String.ofList line))

/-- `handle_for`. -/
def handleFor (content : String) : OutputHandle where
  inline := if byteLength content.toList ≤ inlineCeiling then some content else none
  hash := blake3 content
  bytes := byteLength content.toList

/-- `issue_status`. -/
def issueStatus (state : String) (stateReason : Option String) : String :=
  if state = "open" then "open"
  else
    match stateReason with
    | some "not_planned" => "closed_dropped"
    | some "reopened" => "open"
    | _ => "closed_completed"

/-- `pr_status`. -/
def prStatus (state : String) (mergedAt : Option String) : String :=
  if mergedAt.isSome then "closed_completed"
  else if state = "open" then "open"
  else "closed_dropped"

/-- `set_common`. -/
def setCommon (ctx : Context) (validTime : String) (record : ProjectNode) : ProjectNode :=
  { record with
    schemaVersion := projectSchemaVersion
    domain := some projectDomain
    entityId := some record.id
    validTime := some validTime
    validTimeSource := some "github_updated_at"
    transactionTime := some ctx.transactionTime
    importerId := some importerId
    importerVersion := some importerVersion
    redactionPolicyVersion := some redactionPolicyVersion }

/-- An optional text of a JSON object. -/
def jsonText (text : Option String) : JsonValue := text.elim .null .string

/-- `body_blob`. -/
def bodyBlob (ctx : Context) (body : Option String) (state : String)
    (stateReason milestone mergedAt : Option String) (draft : Option Bool)
    (headSha baseRef mergeCommitSha closedAt : Option String) : OutputHandle :=
  handleFor blake3 <| JsonValue.text <| .object [
    ("body", jsonText (body.map (redactLines ctx.redact))),
    ("metadata", .object [
      ("state", .string state),
      ("state_reason", jsonText stateReason),
      ("milestone_title", jsonText (milestone.map ctx.redact)),
      ("merged_at", jsonText mergedAt),
      ("draft", draft.elim .null .bool),
      ("head_sha", jsonText headSha),
      ("base_ref", jsonText baseRef),
      ("merge_commit_sha", jsonText mergeCommitSha),
      ("closed_at", jsonText closedAt)])]

end Fields

section Identities

variable (blake3 : String → String)

/-- `external_identity_node`. -/
def externalIdentityNode (ctx : Context) (login : String) : ProjectNode :=
  let record := graphNode (externalIdentityId blake3 githubSystem login) .externalIdentity none none
    (githubSystem ++ " identity " ++ login)
  { setCommon ctx ctx.transactionTime record with
    author := some login
    identitySystem := some githubSystem }

/-- `reviewed_by_records`. -/
def reviewedByRecords (ctx : Context) (reviewId : String) (author : Option String) :
    List ImportRecord :=
  match author.filter (· ≠ "") with
  | none => []
  | some login =>
      let identity := externalIdentityNode blake3 ctx login
      [.node identity,
        projectEdge blake3 .reviewedBy reviewId identity.id
          ("review " ++ reviewId ++ " authored by " ++ githubSystem ++ ":" ++ login)]

/-- `team_review_diagnostic_id`. -/
def teamReviewDiagnosticId (sourceRepo : String) (number : Nat) (slug : String) : String :=
  projectStableId blake3
    ["project", "Diagnostic", importerId, sourceRepo, "pr:" ++ toString number,
      "github_team_review_request_unexpanded", slug]

/-- `team_review_diagnostic`. -/
def teamReviewDiagnostic (ctx : Context) (taskId : String) (number : Nat) (slug : String) :
    ProjectNode :=
  setCommon ctx ctx.transactionTime <|
    graphNode (teamReviewDiagnosticId blake3 ctx.sourceRepo number slug) .diagnostic none none
      ("[github_team_review_request_unexpanded] PR #" ++ toString number ++
        " requested review from team '" ++ slug ++
        "'; teams are recorded but never expanded to member logins; task='" ++ taskId ++ "'")

/-- `requested_review_records`. -/
def requestedReviewRecords (ctx : Context) (taskId : String) (number : Nat) (pr : PullRequest) :
    List ImportRecord :=
  (pr.requestedReviewers.flatMap fun user =>
    if user.login = "" then []
    else
      let identity := externalIdentityNode blake3 ctx user.login
      [.node identity,
        projectEdge blake3 .requestedReviewFrom taskId identity.id
          ("PR #" ++ toString number ++ " requested review from " ++ githubSystem ++ ":" ++
            user.login)]) ++
    pr.requestedTeams.flatMap fun team =>
      if team.slug = "" then []
      else [.node (teamReviewDiagnostic blake3 ctx taskId number team.slug)]

end Identities

section Tasks

variable (blake3 : String → String)

/-- `PrTaskFields`. -/
structure PrTaskFields where
  headSha : Option String := none
  headRef : Option String := none
  baseRef : Option String := none
  mergeCommitSha : Option String := none
  mergedAt : Option String := none
  draft : Option Bool := none

/-- `task_and_link`. -/
def taskAndLink (ctx : Context) (sourceKind : String) (number : Nat) (nativeId title url : String)
    (updatedAt status : String) (labels : List Label) (assignees : List User)
    (author : Option String) (bodyHandle : OutputHandle) (prFields : PrTaskFields) : Emitted :=
  let taskId := projectStableId blake3 ["project", "Task", ctx.sourceRepo, toString number, nativeId]
  let linkId := projectStableId blake3
    ["project", "ExternalLink", ctx.sourceRepo, toString number, githubSystem, nativeId]
  let redactedTitle := ctx.redact title
  let task := setCommon ctx updatedAt <|
    graphNode taskId .task none (some redactedTitle) (sourceKind ++ " #" ++ toString number)
  let task := { task with
    title := some redactedTitle
    bodyHandle := some bodyHandle
    status := some status
    sourceKind := some sourceKind
    sourceExternalLinkId := some linkId
    assignees := some (assignees.map fun user => ctx.redact user.login)
    labels := some (labels.map fun label => ctx.redact label.name)
    priority := some "unknown"
    author := author
    headSha := prFields.headSha
    headRef := prFields.headRef
    baseRef := prFields.baseRef
    mergeCommitSha := prFields.mergeCommitSha
    mergedAt := prFields.mergedAt
    draft := prFields.draft }
  let link := setCommon ctx updatedAt <|
    graphNode linkId .externalLink none none ("github " ++ nativeId)
  let link := { link with
    system := some githubSystem
    url := some (ctx.redact url)
    systemNativeId := some nativeId
    discoveredAt := some ctx.transactionTime
    repositoryRemote := some ("https://github.com/" ++ ctx.sourceRepo) }
  { records := [.node task, .node link,
      graphEdge blake3 .externalHandle taskId linkId
        ("Task #" ++ toString number ++ " external handle")] }

/-- `issue_records`. -/
def issueRecords (ctx : Context) (issue : Issue) : Emitted :=
  taskAndLink blake3 ctx sourceKindIssue issue.number ("issue:" ++ toString issue.number) issue.title
    issue.htmlUrl issue.updatedAt (issueStatus issue.state issue.stateReason) issue.labels
    issue.assignees (issue.user.map User.login)
    (bodyBlob blake3 ctx issue.body issue.state issue.stateReason
      (issue.milestone.map Milestone.title) none none none none none issue.closedAt)
    {}

/-- The SHA of the landed merge commit: a pull request that is not merged has none. -/
def landedSha (pr : PullRequest) : Option String :=
  (pr.mergeCommitSha.filter (· ≠ "")).filter fun _ => pr.mergedAt.isSome

/-- `merge_resolution_marker`. -/
def mergeResolutionMarker (commitIndex : StrMap (List String)) (pr : PullRequest) : String :=
  match landedSha pr with
  | none => "none"
  | some sha =>
      if commitIndex.isEmpty then "none" else (resolve commitIndex sha).marker

/-- `commit_diagnostic_id`. -/
def commitDiagnosticId (sourceRepo : String) (number : Nat) (sha : String) : String :=
  projectStableId blake3
    ["project", "Diagnostic", importerId, sourceRepo, "pr:" ++ toString number,
      "github_commit_unresolved", sha]

/-- `merge_artifact_id`. -/
def mergeArtifactId (commitIndex : StrMap (List String)) (sourceRepo : String) (pr : PullRequest) :
    Option String := do
  let sha ← landedSha pr
  if commitIndex.isEmpty then none
  else
    match resolve commitIndex sha with
    | .resolved commitId =>
        some (projectEdgeId blake3 .mergedAs (prTaskId blake3 sourceRepo pr.number) commitId)
    | _ => some (commitDiagnosticId blake3 sourceRepo pr.number sha)

/-- A tombstone of the importer, about an artifact of a resource that was superseded. -/
def supersededTombstone (nativeId reason deletedId summary : String) : ImportRecord :=
  .tombstone {
    id := projectStableId blake3 ["project", "Tombstone", importerId, nativeId, reason, deletedId]
    schemaVersion := projectSchemaVersion
    deletedId := deletedId
    summary := summary }

/-- `merge_artifact_tombstone`. -/
def mergeArtifactTombstone (number : Nat) (deletedId : String) : ImportRecord :=
  supersededTombstone blake3 ("pr:" ++ toString number) "merge_resolution_superseded" deletedId
    ("[merge_resolution_superseded] PR #" ++ toString number ++
      " merge-resolution outcome changed; retracting superseded artifact " ++ deletedId)

/-- The detail of a SHA that several `Commit` records match, or none. -/
def commitDetail : Option Nat → String
  | some count => toString count ++ " code-graph Commit records claim this SHA"
  | none => "no code-graph Commit record matches this SHA in the seeded store"

/-- `commit_diagnostic`. -/
def commitDiagnostic (ctx : Context) (number : Nat) (sha taskId detail : String) : ProjectNode :=
  setCommon ctx ctx.transactionTime <|
    graphNode (commitDiagnosticId blake3 ctx.sourceRepo number sha) .diagnostic none none
      ("[github_commit_unresolved] " ++ detail ++ "; merge_commit_sha='" ++ sha ++ "' task='" ++
        taskId ++ "'")

/-- `resolve_merge_commit`: the record, and whether it is a diagnostic. -/
def resolveMergeCommit (ctx : Context) (taskId : String) (number : Nat) (sha : String) :
    Option (ImportRecord × Bool) :=
  if ctx.commitIndex.isEmpty then none
  else
    let unlinked (count : Option Nat) : Option (ImportRecord × Bool) :=
      some (.node (commitDiagnostic blake3 ctx number sha taskId (commitDetail count)), true)
    match resolve ctx.commitIndex sha with
    | .resolved commitId =>
        some (projectEdge blake3 .mergedAs taskId commitId
          ("PR #" ++ toString number ++ " merged as commit " ++ sha), false)
    | .ambiguous count => unlinked (some count)
    | .unresolved => unlinked none

/-- `Emitted` with one more artifact, counted when it is a diagnostic. -/
def Emitted.push (emitted : Emitted) (artifact : Option (ImportRecord × Bool)) : Emitted :=
  match artifact with
  | none => emitted
  | some (record, isDiagnostic) => {
      records := emitted.records ++ [record]
      linkDiagnostics := emitted.linkDiagnostics + if isDiagnostic then 1 else 0 }

/-- `Emitted` with more records. -/
def Emitted.extend (emitted : Emitted) (records : List ImportRecord) : Emitted :=
  { emitted with records := emitted.records ++ records }

/-- `pull_records`. -/
def pullRecords (ctx : Context) (pr : PullRequest) : Emitted :=
  let taskId := taskIdFor blake3 ctx.sourceRepo "pr" pr.number
  let emitted := taskAndLink blake3 ctx sourceKindPr pr.number ("pr:" ++ toString pr.number) pr.title
    pr.htmlUrl pr.updatedAt (prStatus pr.state pr.mergedAt) pr.labels pr.assignees
    (pr.user.map User.login)
    (bodyBlob blake3 ctx pr.body pr.state none (pr.milestone.map Milestone.title) pr.mergedAt
      (some pr.draft) (pr.head.map GitRef.sha) (pr.base.map GitRef.refName) pr.mergeCommitSha
      pr.closedAt)
    { headSha := pr.head.map GitRef.sha
      headRef := pr.head.map GitRef.refName
      baseRef := pr.base.map GitRef.refName
      mergeCommitSha := if pr.mergedAt.isSome then pr.mergeCommitSha else none
      mergedAt := pr.mergedAt
      draft := some pr.draft }
  let emitted := emitted.push ((landedSha pr).bind (resolveMergeCommit blake3 ctx taskId pr.number))
  let emitted := emitted.extend (requestedReviewRecords blake3 ctx taskId pr.number pr)
  let author := (pr.user.map User.login).filter (· ≠ "")
  emitted.extend (author.toList.map fun login => .node (externalIdentityNode blake3 ctx login))

/-- `requested_review_edge_ids`, sorted, each once. -/
def requestedReviewEdgeIds (sourceRepo : String) (pr : PullRequest) : List String :=
  (Std.ExtTreeSet.ofList (pr.requestedReviewers.filterMap fun user =>
    if user.login = "" then none
    else some (projectEdgeId blake3 .requestedReviewFrom (prTaskId blake3 sourceRepo pr.number)
      (externalIdentityId blake3 githubSystem user.login))) byteOrder).toList

/-- `team_review_diagnostic_ids`, sorted, each once. -/
def teamReviewDiagnosticIds (sourceRepo : String) (pr : PullRequest) : List String :=
  (Std.ExtTreeSet.ofList (pr.requestedTeams.filterMap fun team =>
    if team.slug = "" then none
    else some (teamReviewDiagnosticId blake3 sourceRepo pr.number team.slug)) byteOrder).toList

/-- `request_review_edge_tombstone`. -/
def requestReviewEdgeTombstone (number : Nat) (deletedId : String) : ImportRecord :=
  supersededTombstone blake3 ("pr:" ++ toString number) "requested_review_superseded" deletedId
    ("[requested_review_superseded] PR #" ++ toString number ++
      " requested-reviewer set changed; retracting superseded REQUESTED_REVIEW_FROM edge " ++
      deletedId)

/-- `team_review_diagnostic_tombstone`. -/
def teamReviewDiagnosticTombstone (number : Nat) (deletedId : String) : ImportRecord :=
  supersededTombstone blake3 ("pr:" ++ toString number) "team_review_request_superseded" deletedId
    ("[team_review_request_superseded] PR #" ++ toString number ++
      " requested-team set changed; retracting superseded " ++
      "github_team_review_request_unexpanded diagnostic " ++ deletedId)

end Tasks

end Egregore.Github
