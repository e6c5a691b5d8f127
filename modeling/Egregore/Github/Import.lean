import Egregore.Github.State
import Egregore.Github.Timeline

/-!
# Import runs

`github/import.rs`: one run over what the list endpoints delivered. A resource that is
unchanged adds no records; a changed one also retracts the artifacts that it no longer has.
-/

namespace Egregore.Github

open Base

/-- An item of a timeline: its JSON text, the kind and ID that are read from it directly, and the
event when it deserializes. -/
structure TimelineItem where
  item : String
  kind : String
  id : Nat
  event : Option TimelineEvent

/-- What the endpoints deliver to a run, without the items that do not deserialize. An endpoint
that answers `304` delivers nothing. -/
structure Delivery (readers : Readers) where
  issues : List Issue := []
  pulls : List PullRequest := []
  issueComments : List (Parsed readers.issueComment) := []
  reviewComments : List (Parsed readers.reviewComment) := []
  /-- The reviews of a pull request. -/
  reviews : Nat → List (Parsed readers.review) := fun _ => []
  /-- The timeline of a pull request. -/
  timeline : Nat → List TimelineItem := fun _ => []

/-- A run: its state, its graph, the identities it has emitted, and how many records. -/
structure ImportPass where
  state : State
  graph : List ImportRecord := []
  seenIdentities : StrSet := ∅
  emittedCount : Nat := 0

namespace ImportPass

/-- A record joins the graph; an identity only the first time. -/
def pushRecord (run : ImportPass) (record : ImportRecord) : ImportPass :=
  let seen : Bool :=
    match record with
    | .node node => node.kind = .externalIdentity && run.seenIdentities.contains node.id
    | _ => false
  if seen then run
  else { run with
    graph := run.graph ++ [record]
    seenIdentities :=
      match record with
      | .node node =>
          if node.kind = .externalIdentity then run.seenIdentities.insert node.id
          else run.seenIdentities
      | _ => run.seenIdentities
    emittedCount := run.emittedCount + 1 }

/-- `push_emitted`. -/
def pushEmitted (run : ImportPass) (emitted : Emitted) : ImportPass :=
  emitted.records.foldl pushRecord run

/-- A run with another state. -/
def withState (run : ImportPass) (state : State) : ImportPass := { run with state := state }

variable (blake3 : String → String) (ctx : Context)

/-- The turn of an issue. -/
def importIssue (run : ImportPass) (issue : Issue) : ImportPass :=
  if issue.pullRequest then run
  else
    let key := (Resource.issue issue.number).key
    let hash := issueHash blake3 issue
    if run.state.isUnchanged key hash then run
    else (run.withState (run.state.recordHash key hash)).pushEmitted (issueRecords blake3 ctx issue)

/-- The prior artifacts that are not among the current ones. -/
def removed (prior current : List String) : List String :=
  prior.filter fun id => !current.contains id

/-- The turn of a pull request. -/
def importPull (run : ImportPass) (pr : PullRequest) : ImportPass :=
  let key := (Resource.pull pr.number).key
  let hash := pullHash blake3 pr (mergeResolutionMarker ctx.commitIndex pr)
  let currentArtifact := mergeArtifactId blake3 ctx.commitIndex ctx.sourceRepo pr
  let currentRequestEdges := requestedReviewEdgeIds blake3 ctx.sourceRepo pr
  let currentTeamDiagnostics := teamReviewDiagnosticIds blake3 ctx.sourceRepo pr
  let keep (state : State) : State :=
    ((state.setMergeArtifact key currentArtifact).setRequestEdges key
      currentRequestEdges).setTeamDiagnostics key currentTeamDiagnostics
  if run.state.isUnchanged key hash then run.withState (keep run.state)
  else
    let superseded := (run.state.priorMergeArtifact key).filter fun prior =>
      some prior ≠ currentArtifact
    let run := superseded.toList.foldl (fun run prior =>
      run.pushEmitted { records := [mergeArtifactTombstone blake3 pr.number prior] }) run
    let run := (removed (run.state.priorRequestEdges key) currentRequestEdges).foldl
      (fun run prior =>
        run.pushEmitted { records := [requestReviewEdgeTombstone blake3 pr.number prior] }) run
    let run := (removed (run.state.priorTeamDiagnostics key) currentTeamDiagnostics).foldl
      (fun run prior =>
        run.pushEmitted { records := [teamReviewDiagnosticTombstone blake3 pr.number prior] }) run
    (run.withState (keep (run.state.recordHash key hash))).pushEmitted (pullRecords blake3 ctx pr)

/-- The turn of an issue comment. -/
def importIssueComment {read : String → Option IssueComment} (run : ImportPass)
    (comment : Parsed read) : ImportPass :=
  let key := (Resource.issueComment comment.value.id).key
  let hash := blake3 comment.item
  if run.state.isUnchanged key hash then run
  else
    (run.withState (run.state.recordHash key hash)).pushEmitted
      (issueCommentRecords blake3 ctx comment.value)

/-- The turn of a review or review comment: its native ID if it has one, its current anchor and
its records. -/
def importAnchored (key hash : String) (native currentArtifact : Option String) (emitted : Emitted)
    (run : ImportPass) : ImportPass :=
  if run.state.isUnchanged key hash then
    run.withState (run.state.setReviewArtifact key currentArtifact)
  else
    let superseded := (run.state.priorReviewArtifact key).filter fun prior =>
      some prior ≠ currentArtifact
    let tombstones := superseded.toList.flatMap fun prior =>
      native.toList.map fun native => reviewArtifactTombstone blake3 native prior
    let run := run.pushEmitted { records := tombstones }
    (run.withState
      ((run.state.recordHash key hash).setReviewArtifact key currentArtifact)).pushEmitted emitted

/-- The native ID of a review comment, when its pull request has a number. -/
def commentNative (comment : ReviewComment) : Option String :=
  (trailingNumber comment.pullRequestUrl).map fun number =>
    reviewNativeId "pr_review_comment" number comment.id

/-- The turn of a review comment. -/
def importReviewComment {read : String → Option ReviewComment} (run : ImportPass)
    (comment : Parsed read) : ImportPass :=
  let native := commentNative comment.value
  let marker := reviewCommitMarker ctx.commitIndex "pr_review_comment" comment.value.commitId
  importAnchored blake3 (Resource.reviewComment comment.value.id).key
    (reviewHash blake3 (blake3 comment.item) marker) native
    (native.bind fun native => reviewArtifactId blake3 ctx.commitIndex ctx.sourceRepo native
      "pr_review_comment" comment.value.commitId)
    (reviewCommentRecords blake3 ctx comment.value) run

/-- The turn of a review; a review that is emitted becomes present. -/
def importReview {read : String → Option Review} (number : Nat) (progress : ImportPass × List Nat)
    (review : Parsed read) : ImportPass × List Nat :=
  let key := (Resource.review number review.value.id).key
  let native := reviewNativeId "pr_review" number review.value.id
  let marker := reviewCommitMarker ctx.commitIndex "pr_review" review.value.commitId
  let hash := reviewHash blake3 (blake3 review.item) marker
  (importAnchored blake3 key hash (some native)
      (reviewArtifactId blake3 ctx.commitIndex ctx.sourceRepo native "pr_review"
        review.value.commitId)
      (prReviewRecords blake3 ctx number review.value) progress.1,
    if progress.1.state.isUnchanged key hash then progress.2 else progress.2 ++ [review.value.id])

/-- The key of a timeline event. -/
def timelineKey (eventId : Nat) : String := "timeline_event:" ++ toString eventId

/-- The turn of a timeline item. -/
def importTimelineItem (number : Nat) (presentReviewIds : List Nat) (run : ImportPass)
    (item : TimelineItem) : ImportPass :=
  if !isReviewStateTransitionKind item.kind then run
  else
    let hash := blake3 item.item
    if run.state.isUnchanged (timelineKey item.id) hash then run
    else
      (run.withState (run.state.recordHash (timelineKey item.id) hash)).pushEmitted <|
        match item.event with
        | none => timelineTransitionUnparseable blake3 ctx number item.id item.kind
        | some event => timelineTransitionRecords blake3 ctx number event presentReviewIds

variable {readers : Readers}

/-- The reviews and the timeline of a changed pull request. -/
def importReviews (delivery : Delivery readers) (run : ImportPass) (number : Nat) : ImportPass :=
  let reviewed := (delivery.reviews number).foldl (importReview blake3 ctx number) (run, [])
  (delivery.timeline number).foldl (importTimelineItem blake3 ctx number reviewed.2) reviewed.1

/-- The numbers of the pull requests that a run saw, sorted, each once. -/
def changedPrNumbers (delivery : Delivery readers) : List Nat :=
  ((delivery.pulls.map PullRequest.number).insertionSort (· ≤ ·)).dedup

/-- `handoff_record`. -/
def handoffRecord (emitted : Nat) : ImportRecord :=
  .node <| setCommon ctx ctx.transactionTime <|
    graphNode
      (projectStableId blake3
        ["project", "Diagnostic", importerId, ctx.sourceRepo, "github_import_handoff"])
      .diagnostic none none
      ("[github_import_handoff] repo=" ++ ctx.sourceRepo ++ " emitted=" ++ toString emitted ++
        " at=" ++ ctx.transactionTime)

/-- `run_import`: the graph of a run and the state it leaves. -/
def runImport (delivery : Delivery readers) (priorState : State) : List ImportRecord × State :=
  let run : ImportPass := { state := priorState }
  let run := delivery.issues.foldl (importIssue blake3 ctx) run
  let run := delivery.pulls.foldl (importPull blake3 ctx) run
  let run := delivery.issueComments.foldl (importIssueComment blake3 ctx) run
  let run := delivery.reviewComments.foldl (importReviewComment blake3 ctx) run
  let run := (changedPrNumbers delivery).foldl (importReviews blake3 ctx delivery) run
  (run.graph ++ [handoffRecord blake3 ctx run.emittedCount], run.state)

end ImportPass

end Egregore.Github
