import Egregore.Github.Records

/-!
# GitHub review records

The part of `github/records.rs` about comments and reviews, and what each anchors to.
-/

namespace Egregore.Github

open Base

section Nodes

variable (blake3 : String → String)

/-- `review_node`. -/
def reviewNode (ctx : Context) (nativeId : String) (number : Nat) (reviewKind validTime : String)
    (author body : Option String) (parentTaskId : String) : ProjectNode :=
  let record := setCommon ctx validTime <|
    graphNode (reviewRecordId blake3 ctx.sourceRepo nativeId) .review none none
      (reviewKind ++ " on #" ++ toString number)
  { record with
    reviewKind := some reviewKind
    author := author
    bodyHandle := body.map (handleFor blake3)
    systemNativeId := some nativeId
    parentTaskId := some parentTaskId
    sourceKind := some sourceKindReview }

/-- `set_review_extra`; the lines are GitHub's, and the byte offsets are not known. -/
def setReviewExtra (record : ProjectNode) (reviewState inReplyToId path : Option String)
    (line startLine : Option Nat) (diffHunk side reviewCommitSha : Option String) : ProjectNode :=
  { record with
    reviewState := reviewState
    inReplyToId := inReplyToId
    repoRelativePath := path
    span :=
      match line with
      | some line => some {
          startLine := startLine.getD line
          endLine := line
          startByte := 0
          endByte := 0
          startColumn := none
          endColumn := none }
      | none => record.span
    diffHunkHandle := diffHunk.map (handleFor blake3)
    reviewSide := side
    reviewCommitSha := reviewCommitSha }

/-- `edge_and_pack`. -/
def edgeAndPack (review : ProjectNode) (parentTaskId : String)
    (touchesFile : Option ImportRecord) : Emitted where
  records :=
    [.node review,
      graphEdge blake3 .referencesTask review.id parentTaskId "review references task"] ++
      touchesFile.toList

end Nodes

section Files

variable (blake3 : String → String)

/-- `link_diagnostic`. -/
def linkDiagnostic (ctx : Context) (code path commentUrl reviewId detail : String) : ProjectNode :=
  setCommon ctx ctx.transactionTime <|
    graphNode (projectStableId blake3 ["project", "Diagnostic", importerId, reviewId, code, path])
      .diagnostic (some path) none
      ("[" ++ code ++ "] " ++ detail ++ "; path='" ++ path ++ "' comment='" ++ commentUrl ++
        "' review='" ++ reviewId ++ "'")

/-- `resolve_file_link`: the edge to the file, or the diagnostic. -/
def resolveFileLink (ctx : Context) (reviewId : String) (comment : ReviewComment) :
    Option ImportRecord × Option ImportRecord :=
  match comment.path with
  | none => (none, none)
  | some path =>
      let diagnose (code detail : String) : Option ImportRecord × Option ImportRecord :=
        (none, some (.node (linkDiagnostic blake3 ctx code path comment.htmlUrl reviewId detail)))
      match resolve ctx.fileIndex path with
      | .resolved fileId =>
          (some (graphEdge blake3 .touchesFile reviewId fileId ("review comment touches " ++ path)),
            none)
      | .ambiguous count =>
          diagnose "github_file_ambiguous"
            (toString count ++ " code-graph File records claim this path")
      | .unresolved =>
          diagnose "github_file_unresolved"
            "no code-graph File record matches this path in the seeded store"

end Files

section Anchors

variable (blake3 : String → String)

/-- `review_kind_is_commit_anchored`. -/
def reviewKindIsCommitAnchored (reviewKind : String) : Bool :=
  reviewKind = "pr_review" || reviewKind = "pr_review_comment"

/-- `review_diagnostic_id`. -/
def reviewDiagnosticId (reviewId code sha : String) : String :=
  projectStableId blake3 ["project", "Diagnostic", importerId, reviewId, code, sha]

/-- `review_diagnostic`. -/
def reviewDiagnostic (ctx : Context) (reviewId code sha detail : String) : ProjectNode :=
  let summary :=
    if sha = "" then "[" ++ code ++ "] " ++ detail ++ "; review='" ++ reviewId ++ "'"
    else
      "[" ++ code ++ "] " ++ detail ++ "; review_commit_sha='" ++ sha ++ "' review='" ++
        reviewId ++ "'"
  setCommon ctx ctx.transactionTime <|
    graphNode (reviewDiagnosticId blake3 reviewId code sha) .diagnostic none none summary

/-- `resolve_review_commit`: the record, and whether it is a diagnostic. -/
def resolveReviewCommit (ctx : Context) (reviewId : String) (commitId : Option String) :
    Option (ImportRecord × Bool) :=
  if ctx.commitIndex.isEmpty then none
  else
    match commitId.filter (· ≠ "") with
    | none =>
        some (.node (reviewDiagnostic blake3 ctx reviewId "github_review_unanchored" ""
          "review carries no commit_id; cannot anchor it to a commit"), true)
    | some sha =>
        let unlinked (count : Option Nat) : Option (ImportRecord × Bool) :=
          some (.node (reviewDiagnostic blake3 ctx reviewId "github_commit_unresolved" sha
            (commitDetail count)), true)
        match resolve ctx.commitIndex sha with
        | .resolved commitRecordId =>
            some (projectEdge blake3 .reviewsCommit reviewId commitRecordId
              ("review " ++ reviewId ++ " anchored to commit " ++ sha), false)
        | .ambiguous count => unlinked (some count)
        | .unresolved => unlinked none

/-- `review_commit_marker`. -/
def reviewCommitMarker (commitIndex : StrMap (List String)) (reviewKind : String)
    (commitId : Option String) : String :=
  if !reviewKindIsCommitAnchored reviewKind || commitIndex.isEmpty then "none"
  else
    match commitId.filter (· ≠ "") with
    | none => "unanchored"
    | some sha => (resolve commitIndex sha).marker

/-- `review_artifact_id`. -/
def reviewArtifactId (commitIndex : StrMap (List String)) (sourceRepo nativeId reviewKind : String)
    (commitId : Option String) : Option String :=
  if !reviewKindIsCommitAnchored reviewKind || commitIndex.isEmpty then none
  else
    let reviewId := reviewRecordId blake3 sourceRepo nativeId
    match commitId.filter (· ≠ "") with
    | none => some (reviewDiagnosticId blake3 reviewId "github_review_unanchored" "")
    | some sha =>
        match resolve commitIndex sha with
        | .resolved commitRecordId => some (projectEdgeId blake3 .reviewsCommit reviewId commitRecordId)
        | _ => some (reviewDiagnosticId blake3 reviewId "github_commit_unresolved" sha)

/-- `review_artifact_tombstone`. -/
def reviewArtifactTombstone (nativeId deletedId : String) : ImportRecord :=
  supersededTombstone blake3 nativeId "review_anchor_superseded" deletedId
    ("[review_anchor_superseded] review " ++ nativeId ++
      " commit-anchor outcome changed; retracting superseded artifact " ++ deletedId)

end Anchors

section Emitters

variable (blake3 : String → String)

/-- The native ID of an issue comment, of a review, or of a review comment. -/
def reviewNativeId (reviewKind : String) (number id : Nat) : String :=
  reviewKind ++ ":" ++ toString number ++ ":" ++ toString id

/-- `issue_comment_records`. -/
def issueCommentRecords (ctx : Context) (comment : IssueComment) : Emitted :=
  match trailingNumber comment.issueUrl with
  | none => {}
  | some number =>
      let parentKind := if containsText comment.htmlUrl "/pull/" then "pr" else "issue"
      let native := reviewNativeId "issue_comment" number comment.id
      let parent := taskIdFor blake3 ctx.sourceRepo parentKind number
      let record := reviewNode blake3 ctx native number "issue_comment" comment.updatedAt
        (comment.user.map User.login) (comment.body.map (redactLines ctx.redact)) parent
      let record := setReviewExtra blake3 record none none none none none none none none
      let reviewId := reviewRecordId blake3 ctx.sourceRepo native
      (edgeAndPack blake3 record parent none).extend
        (reviewedByRecords blake3 ctx reviewId (comment.user.map User.login))

/-- The valid time of a review: when it was submitted, or the run's time. -/
def submittedTime (ctx : Context) (review : Review) : String :=
  if review.submittedAt.getD "" = "" then ctx.transactionTime
  else review.submittedAt.getD ctx.transactionTime

/-- `pr_review_records`. -/
def prReviewRecords (ctx : Context) (prNumber : Nat) (review : Review) : Emitted :=
  let native := reviewNativeId "pr_review" prNumber review.id
  let parent := taskIdFor blake3 ctx.sourceRepo "pr" prNumber
  let record := reviewNode blake3 ctx native prNumber "pr_review" (submittedTime ctx review)
    (review.user.map User.login) (review.body.map (redactLines ctx.redact)) parent
  let state := String.ofList (review.state.toList.map Char.toLower)
  let record := setReviewExtra blake3 record (some state) none none none none none none review.commitId
  let reviewId := reviewRecordId blake3 ctx.sourceRepo native
  ((edgeAndPack blake3 record parent none).push
      (resolveReviewCommit blake3 ctx reviewId review.commitId)).extend
    (reviewedByRecords blake3 ctx reviewId (review.user.map User.login))

/-- `review_comment_records`. -/
def reviewCommentRecords (ctx : Context) (comment : ReviewComment) : Emitted :=
  match trailingNumber comment.pullRequestUrl with
  | none => {}
  | some number =>
      let native := reviewNativeId "pr_review_comment" number comment.id
      let parent := taskIdFor blake3 ctx.sourceRepo "pr" number
      let record := reviewNode blake3 ctx native number "pr_review_comment" comment.updatedAt
        (comment.user.map User.login) (comment.body.map (redactLines ctx.redact)) parent
      let inReply := comment.inReplyToId.map fun id =>
        reviewRecordId blake3 ctx.sourceRepo (reviewNativeId "pr_review_comment" number id)
      let record := setReviewExtra blake3 record none inReply comment.path comment.line
        comment.startLine (comment.diffHunk.map (redactLines ctx.redact)) comment.side
        comment.commitId
      let reviewId := reviewRecordId blake3 ctx.sourceRepo native
      let link := resolveFileLink blake3 ctx reviewId comment
      ((((edgeAndPack blake3 record parent link.1).push (link.2.map fun record => (record, true))).push
        (resolveReviewCommit blake3 ctx reviewId comment.commitId))).extend
          (reviewedByRecords blake3 ctx reviewId (comment.user.map User.login))

end Emitters

end Egregore.Github
