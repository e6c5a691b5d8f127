import Egregore.Github.Reviews

/-!
# Review-state transitions

The part of `github/records.rs` about the timeline of a pull request: what dismissed a review
or changed who was asked for one.
-/

namespace Egregore.Github

open Base

variable (blake3 : String → String)

/-- `is_review_state_transition_kind`. -/
def isReviewStateTransitionKind (event : String) : Bool :=
  ["review_dismissed", "review_requested", "review_request_removed"].contains event

/-- `timeline_native_id`. -/
def timelineNativeId (eventId : Nat) : String := "timeline:" ++ toString eventId

/-- `review_state_transition_id`. -/
def reviewStateTransitionId (sourceRepo : String) (number eventId : Nat) : String :=
  projectStableId blake3
    ["project", "ReviewStateTransition", sourceRepo, toString number, timelineNativeId eventId]

/-- `timeline_diagnostic_id`. -/
def timelineDiagnosticId (sourceRepo : String) (number eventId : Nat) (code : String) : String :=
  projectStableId blake3
    ["project", "Diagnostic", importerId, sourceRepo, "pr:" ++ toString number, code,
      timelineNativeId eventId]

/-- `timeline_diagnostic`. -/
def timelineDiagnostic (ctx : Context) (number eventId : Nat) (eventKind code detail : String) :
    ProjectNode :=
  setCommon ctx ctx.transactionTime <|
    graphNode (timelineDiagnosticId blake3 ctx.sourceRepo number eventId code) .diagnostic none none
      ("[" ++ code ++ "] PR #" ++ toString number ++ " timeline event '" ++ eventKind ++ "' (id " ++
        toString eventId ++ ") could not be recorded as intended: " ++ detail)

/-- `review_state_transition_node`. -/
def reviewStateTransitionNode (ctx : Context) (number : Nat) (event : TimelineEvent)
    (message : Option String) : ProjectNode :=
  let validTime := if event.createdAt = "" then ctx.transactionTime else event.createdAt
  let record := setCommon ctx validTime <|
    graphNode (reviewStateTransitionId blake3 ctx.sourceRepo number event.id) .reviewStateTransition
      none none (event.event ++ " on PR #" ++ toString number)
  { record with
    transitionKind := some event.event
    author := event.actor.map User.login
    systemNativeId := some (timelineNativeId event.id)
    bodyHandle := (message.filter (· ≠ "")).map fun message =>
      handleFor blake3 (redactLines ctx.redact message) }

/-- An event that is recorded as a diagnostic alone. -/
def timelineUnparseable (ctx : Context) (number eventId : Nat) (eventKind detail : String) :
    Emitted where
  records := [.node (timelineDiagnostic blake3 ctx number eventId eventKind
    "github_timeline_event_unparseable" detail)]
  linkDiagnostics := 1

/-- `timeline_transition_unparseable`. -/
def timelineTransitionUnparseable (ctx : Context) (number eventId : Nat) (eventKind : String) :
    Emitted :=
  timelineUnparseable blake3 ctx number eventId eventKind
    "timeline event JSON could not be deserialized"

/-- `timeline_transition_records`. -/
def timelineTransitionRecords (ctx : Context) (number : Nat) (event : TimelineEvent)
    (presentReviewIds : List Nat) : Emitted :=
  if !isReviewStateTransitionKind event.event then {}
  else if event.id = 0 || (event.actor.map User.login).getD "" = "" then
    timelineUnparseable blake3 ctx number event.id event.event "missing event id or actor login"
  else if event.event = "review_dismissed" then
    match event.dismissedReview.filter (·.reviewId ≠ 0) with
    | none =>
        timelineUnparseable blake3 ctx number event.id event.event
          "review_dismissed event carried no dismissed_review.review_id"
    | some dismissed =>
        let node := reviewStateTransitionNode blake3 ctx number event dismissed.dismissalMessage
        if !presentReviewIds.contains dismissed.reviewId then {
          records := [.node node, .node (timelineDiagnostic blake3 ctx number event.id event.event
            "github_dismissed_review_absent"
            ("dismissed review " ++ toString dismissed.reviewId ++
              " is not present in this run's reviews (GitHub omitted it); the transition is " ++
              "recorded without a TRANSITIONS_REVIEW edge to avoid a dangling reference"))]
          linkDiagnostics := 1 }
        else
          let reviewId := reviewRecordId blake3 ctx.sourceRepo
            (reviewNativeId "pr_review" number dismissed.reviewId)
          { records := [.node node,
              projectEdge blake3 .transitionsReview node.id reviewId
                ("review " ++ toString dismissed.reviewId ++ " dismissed on PR #" ++
                  toString number)] }
  else
    { records := [.node (reviewStateTransitionNode blake3 ctx number event none)] }

end Egregore.Github
