import Egregore.Github.State

/-!
# What an unchanged resource keeps

When the importer calls a payload unchanged, which of its records a fresh import would still
have replaced. `emitted_of_unchanged_iff` compares, for the five kinds of payloads, the fields
that the stored hash covers with those that the records are made of.
-/

namespace Egregore.Github

open Base

section Keys

/-- The JSON of a text tells whether it is there. -/
@[simp] theorem jsonText_inj {text other : Option String} :
    jsonText text = jsonText other ↔ text = other := by
  cases text <;> cases other <;> simp [jsonText]

/-- The JSON of some texts tells each of them. -/
@[simp] theorem jsonTexts_inj {texts others : List String} :
    jsonTexts texts = jsonTexts others ↔ texts = others := by
  rw [jsonTexts, jsonTexts, JsonValue.array.injEq]
  exact (List.map_injective_iff.mpr fun _ _ same => JsonValue.string.inj same).eq_iff

variable {blake3 : String → String}

/-- The hash of an issue determines the fields it is made of. -/
theorem issueKey_of_issueHash (injective : Function.Injective blake3) {issue other : Issue}
    (same : issueHash blake3 issue = issueHash blake3 other) : issueKey issue = issueKey other :=
  JsonValue.text_injective (injective same)

/-- So does that of a pull request, its marker included. -/
theorem pullKey_of_pullHash (injective : Function.Injective blake3) {pr other : PullRequest}
    {marker marker' : String} (same : pullHash blake3 pr marker = pullHash blake3 other marker') :
    pullKey pr marker = pullKey other marker' :=
  JsonValue.text_injective (injective same)

/-- The marker of a review starts after the one mark that its payload hash cannot hold. -/
theorem parts_of_reviewHash (injective : Function.Injective blake3)
    (plain : ∀ text, '\x01' ∉ (blake3 text).toList) {item other marker marker' : String}
    (same : reviewHash blake3 (blake3 item) marker = reviewHash blake3 (blake3 other) marker') :
    item = other ∧ marker = marker' := by
  have texts := congrArg String.toList (injective same)
  simp only [String.toList_append, List.append_assoc] at texts
  have split := congrArg (splitOnce ['\x01']) texts
  have mark : "\x01".toList = ['\x01'] := rfl
  rw [mark, List.singleton_append, List.singleton_append,
    splitOnce_append_cons (plain item), splitOnce_append_cons (plain other)] at split
  simp only [Option.some.injEq, Prod.mk.injEq, String.toList_inj] at split
  exact ⟨injective split.1, split.2⟩

end Keys

section Resolutions

/-- The marker tells how a commit resolved. -/
theorem Resolution.marker_injective : Function.Injective Resolution.marker := by
  intro resolution other same
  have chars := congrArg String.toList same
  cases resolution with
  | resolved id =>
      cases other with
      | resolved id' =>
          rw [Resolution.marker, Resolution.marker, String.append_right_inj] at same
          rw [same]
      | _ => simp [Resolution.marker] at chars
  | ambiguous count =>
      cases other with
      | ambiguous count' =>
          rw [Resolution.marker, Resolution.marker, String.append_right_inj] at same
          rw [toString_injective same]
      | _ => simp [Resolution.marker] at chars
  | unresolved =>
      cases other with
      | unresolved => rfl
      | _ => simp [Resolution.marker] at chars

/-- It differs from that of no commit. -/
theorem Resolution.marker_ne_none (resolution : Resolution) : resolution.marker ≠ "none" := by
  intro same
  have chars := congrArg String.toList same
  cases resolution <;> simp [Resolution.marker] at chars

/-- Two indexes resolve a key alike when they hold as many records under it, and the same one
when it is only one. -/
theorem resolve_eq_iff {index other : StrMap (List String)} {key : String} :
    resolve index key = resolve other key ↔
      (index[key]?.getD []).length = (other[key]?.getD []).length ∧
        ((index[key]?.getD []).length = 1 → index[key]?.getD [] = other[key]?.getD []) := by
  rw [resolve, resolve]
  rcases index[key]? with _ | _ | ⟨id, _ | ⟨next, ids⟩⟩ <;>
    rcases other[key]? with _ | _ | ⟨id', _ | ⟨next', ids'⟩⟩ <;> simp

/-- What the markers of two seeded graphs tell of a commit. -/
theorem resolve_of_marker {index other : StrMap (List String)} {sha : String}
    (same : (if index.isEmpty then "none" else (resolve index sha).marker) =
      if other.isEmpty then "none" else (resolve other sha).marker) :
    index.isEmpty = other.isEmpty ∧
      (index.isEmpty = false → resolve index sha = resolve other sha) := by
  cases empty : index.isEmpty <;> cases empty' : other.isEmpty <;>
    simp only [empty, empty', Bool.false_eq_true, if_true, if_false] at same
  · exact ⟨rfl, fun _ => Resolution.marker_injective same⟩
  · exact absurd same (Resolution.marker_ne_none _)
  · exact absurd same.symm (Resolution.marker_ne_none _)
  · exact ⟨rfl, by simp⟩

end Resolutions

section Artifacts

/-- A context with another seeded graph. -/
def Context.reseed (ctx : Context) (fileIndex commitIndex : StrMap (List String)) : Context :=
  { ctx with
    fileIndex := fileIndex
    commitIndex := commitIndex }

variable {blake3 : String → String} {ctx : Context} {fileIndex commitIndex : StrMap (List String)}

/-- Where the marker is the same, another index resolves the merge commit alike. -/
theorem resolveMergeCommit_reseed {pr : PullRequest} (taskId : String) (number : Nat)
    (same : mergeResolutionMarker ctx.commitIndex pr = mergeResolutionMarker commitIndex pr) :
    (landedSha pr).bind (resolveMergeCommit blake3 (ctx.reseed fileIndex commitIndex) taskId number) =
      (landedSha pr).bind (resolveMergeCommit blake3 ctx taskId number) := by
  rw [mergeResolutionMarker, mergeResolutionMarker] at same
  cases landed : landedSha pr with
  | none => rfl
  | some sha =>
      simp only [landed] at same
      obtain ⟨empty, resolved⟩ := resolve_of_marker same
      rw [Option.bind_some, Option.bind_some, resolveMergeCommit, resolveMergeCommit]
      change (if commitIndex.isEmpty = true then _ else _) = _
      rw [← empty]
      cases seeded : ctx.commitIndex.isEmpty with
      | true => rfl
      | false =>
          rw [if_neg (by simp), if_neg (by simp), resolved seeded]
          rfl

/-- The same of the commit of a review. -/
theorem resolveReviewCommit_reseed {commitId : Option String} {reviewKind : String}
    (anchored : reviewKindIsCommitAnchored reviewKind = true) (reviewId : String)
    (same : reviewCommitMarker ctx.commitIndex reviewKind commitId =
      reviewCommitMarker commitIndex reviewKind commitId) :
    resolveReviewCommit blake3 (ctx.reseed fileIndex commitIndex) reviewId commitId =
      resolveReviewCommit blake3 ctx reviewId commitId := by
  rw [reviewCommitMarker, reviewCommitMarker, anchored, Bool.not_true, Bool.false_or,
    Bool.false_or] at same
  rw [resolveReviewCommit, resolveReviewCommit]
  change (if commitIndex.isEmpty = true then _ else _) = _
  cases given : commitId.filter (· ≠ "") with
  | none =>
      simp only [given] at same
      cases empty : ctx.commitIndex.isEmpty <;> cases empty' : commitIndex.isEmpty <;>
        simp [empty, empty'] at same ⊢
      rfl
  | some sha =>
      simp only [given] at same
      obtain ⟨empty, resolved⟩ := resolve_of_marker same
      rw [← empty]
      cases seeded : ctx.commitIndex.isEmpty with
      | true => rfl
      | false =>
          simp only [Bool.false_eq_true, if_false]
          rw [resolved seeded]
          rfl

end Artifacts

section Emitters

/-- Pushing an artifact appends its record. -/
@[simp] theorem Emitted.records_push (emitted : Emitted) (artifact : Option (ImportRecord × Bool)) :
    (emitted.push artifact).records = emitted.records ++ (artifact.map Prod.fst).toList := by
  rcases artifact with _ | ⟨record, isDiagnostic⟩ <;> simp [Emitted.push]

/-- Extending appends the records. -/
@[simp] theorem Emitted.records_extend (emitted : Emitted) (records : List ImportRecord) :
    (emitted.extend records).records = emitted.records ++ records := rfl

variable {blake3 : String → String} {ctx : Context} {fileIndex commitIndex : StrMap (List String)}

/-- Redaction looks at the names of the labels only. -/
private theorem map_redact_names (redact : String → String) (labels : List Label) :
    labels.map (fun label => redact label.name) = (labels.map Label.name).map redact := by
  rw [List.map_map]
  rfl

/-- It looks at the logins of the users only. -/
private theorem map_redact_logins (redact : String → String) (users : List User) :
    users.map (fun user => redact user.login) = (users.map User.login).map redact := by
  rw [List.map_map]
  rfl

private def authorOf : ImportRecord → Option String
  | .node record => record.author
  | _ => none

private def urlOf : ImportRecord → Option String
  | .node record => record.url
  | _ => none

/-- The issue's author and URL are what its hash leaves out. -/
theorem issueRecords_eq_iff {issue other : Issue} (keys : issueKey issue = issueKey other) :
    issueRecords blake3 (ctx.reseed fileIndex commitIndex) other = issueRecords blake3 ctx issue ↔
      other.user.map User.login = issue.user.map User.login ∧
        ctx.redact other.htmlUrl = ctx.redact issue.htmlUrl := by
  simp only [issueKey, JsonValue.object.injEq, List.cons.injEq, Prod.mk.injEq, true_and, and_true,
    JsonValue.number.injEq, JsonValue.string.injEq, jsonText_inj, jsonTexts_inj] at keys
  obtain ⟨number, state, stateReason, title, body, labels, assignees, milestone, updatedAt,
    closedAt⟩ := keys
  constructor
  · intro same
    have authors := congrArg (fun emitted => emitted.records.map authorOf) same
    have urls := congrArg (fun emitted => emitted.records.map urlOf) same
    simp only [issueRecords, taskAndLink, List.map_cons, authorOf, List.cons.injEq] at authors
    simp only [issueRecords, taskAndLink, List.map_cons, urlOf, List.cons.injEq,
      Option.some.injEq] at urls
    exact ⟨authors.1, urls.2.1⟩
  · rintro ⟨author, url⟩
    change issueRecords blake3 ctx other = _
    simp only [issueRecords, taskAndLink, map_redact_names, map_redact_logins, number, state,
      stateReason, title, body, labels, assignees, milestone, updatedAt, closedAt, author, url]

/-- The URL is what the hash of a pull request leaves out. -/
theorem pullRecords_eq_iff {pr other : PullRequest}
    (keys : pullKey pr (mergeResolutionMarker ctx.commitIndex pr) =
      pullKey other (mergeResolutionMarker commitIndex other)) :
    pullRecords blake3 (ctx.reseed fileIndex commitIndex) other = pullRecords blake3 ctx pr ↔
      ctx.redact other.htmlUrl = ctx.redact pr.htmlUrl := by
  simp only [pullKey, JsonValue.object.injEq, List.cons.injEq, Prod.mk.injEq, true_and, and_true,
    JsonValue.number.injEq, JsonValue.string.injEq, JsonValue.bool.injEq, jsonText_inj,
    jsonTexts_inj] at keys
  obtain ⟨number, state, title, body, labels, assignees, milestone, updatedAt, closedAt, mergedAt,
    draft, headSha, headRef, baseRef, mergeCommitSha, marker, reviewers, teams, author⟩ := keys
  have reviewers' : pr.requestedReviewers = other.requestedReviewers :=
    List.map_injective_iff.mpr (fun _ _ same => User.ext same) reviewers
  have teams' : pr.requestedTeams = other.requestedTeams :=
    List.map_injective_iff.mpr (fun _ _ same => Team.ext same) teams
  have landed : landedSha pr = landedSha other := by rw [landedSha, landedSha, mergedAt, mergeCommitSha]
  have artifact :
      (landedSha other).bind (resolveMergeCommit blake3 (ctx.reseed fileIndex commitIndex)
          (taskIdFor blake3 ctx.sourceRepo "pr" other.number) other.number) =
        (landedSha other).bind (resolveMergeCommit blake3 ctx
          (taskIdFor blake3 ctx.sourceRepo "pr" other.number) other.number) := by
    apply resolveMergeCommit_reseed
    rw [← marker, mergeResolutionMarker, mergeResolutionMarker, landed]
  constructor
  · intro same
    have urls := congrArg (fun emitted => emitted.records.map urlOf) same
    simp only [pullRecords, taskAndLink, Emitted.records_extend, Emitted.records_push,
      List.cons_append, List.map_cons, urlOf, List.cons.injEq, Option.some.injEq] at urls
    exact urls.2.1
  · intro url
    simp only [pullRecords, taskAndLink, requestedReviewRecords, map_redact_names,
      map_redact_logins, number, state, title, body, labels, assignees, milestone, updatedAt,
      closedAt, mergedAt, draft, headSha, headRef, baseRef, mergeCommitSha, landed, reviewers',
      teams', author, ← url, ← artifact]
    rfl

/-- An issue comment anchors to nothing of the seeded graph. -/
theorem issueCommentRecords_reseed (comment : IssueComment) :
    issueCommentRecords blake3 (ctx.reseed fileIndex commitIndex) comment =
      issueCommentRecords blake3 ctx comment :=
  rfl

/-- Where the marker is the same, so are the records of a review. -/
theorem prReviewRecords_reseed {review : Review} (number : Nat)
    (same : reviewCommitMarker ctx.commitIndex "pr_review" review.commitId =
      reviewCommitMarker commitIndex "pr_review" review.commitId) :
    prReviewRecords blake3 (ctx.reseed fileIndex commitIndex) number review =
      prReviewRecords blake3 ctx number review := by
  rw [prReviewRecords, prReviewRecords, resolveReviewCommit_reseed rfl _ same]
  rfl

/-- A link diagnostic shows its code and its detail. -/
private theorem linkDiagnostic_inj {other : Context} {code code' path url reviewId detail : String}
    {detail' : String} (same : linkDiagnostic blake3 other code path url reviewId detail =
      linkDiagnostic blake3 ctx code' path url reviewId detail') :
    ∃ tail, code ++ ("] " ++ (detail ++ tail)) = code' ++ ("] " ++ (detail' ++ tail)) := by
  have summaries := congrArg ProjectNode.summary same
  simp only [linkDiagnostic, setCommon, graphNode, String.append_assoc,
    String.append_right_inj] at summaries
  exact ⟨_, summaries⟩

/-- Where the paths resolve alike, so do the links to files. -/
private theorem resolveFileLink_reseed {comment : ReviewComment}
    (same : ∀ path ∈ comment.path, resolve fileIndex path = resolve ctx.fileIndex path)
    (reviewId : String) :
    resolveFileLink blake3 (ctx.reseed fileIndex commitIndex) reviewId comment =
      resolveFileLink blake3 ctx reviewId comment := by
  have reseeded : (ctx.reseed fileIndex commitIndex).fileIndex = fileIndex := rfl
  simp only [resolveFileLink, reseeded]
  cases given : comment.path with
  | none => rfl
  | some path =>
      simp only
      rw [same path given]
      rfl

/-- A file link shows how its path was resolved. -/
private theorem resolveFileLink_reseed_iff {comment : ReviewComment} {path : String}
    (given : comment.path = some path) (reviewId : String) :
    (resolveFileLink blake3 (ctx.reseed fileIndex commitIndex) reviewId comment).1.toList ++
        (resolveFileLink blake3 (ctx.reseed fileIndex commitIndex) reviewId comment).2.toList =
      (resolveFileLink blake3 ctx reviewId comment).1.toList ++
        (resolveFileLink blake3 ctx reviewId comment).2.toList ↔
      resolve fileIndex path = resolve ctx.fileIndex path := by
  refine ⟨?_, fun same => ?_⟩
  rotate_left
  · rw [resolveFileLink_reseed (by simp [given, same])]
  have reseeded : (ctx.reseed fileIndex commitIndex).fileIndex = fileIndex := rfl
  simp only [resolveFileLink, given, reseeded]
  generalize resolve fileIndex path = first
  generalize resolve ctx.fileIndex path = second
  intro same
  cases first with
  | resolved id =>
      cases second with
      | resolved id' =>
          simp only [graphEdge, Option.toList_some, Option.toList_none, List.append_nil,
            List.cons.injEq, ImportRecord.edge.injEq, EdgeRecord.mk.injEq] at same
          rw [same.1.2.2.2.2.1]
      | _ => simp [graphEdge] at same
  | ambiguous count =>
      cases second with
      | resolved id => simp [graphEdge] at same
      | ambiguous count' =>
          obtain ⟨tail, details⟩ := linkDiagnostic_inj
            (ImportRecord.node.inj (List.cons.inj same).1)
          simp only [String.append_assoc, String.append_right_inj] at details
          have stops : ∀ rest : String,
              Stops (" code-graph File records claim this path" ++ rest).toList := by
            intro rest
            rw [String.toList_append]
            exact stops_cons rfl _
          rw [(toString_append_inj (stops _) (stops _) details).1]
      | unresolved =>
          obtain ⟨tail, details⟩ := linkDiagnostic_inj
            (ImportRecord.node.inj (List.cons.inj same).1)
          have chars := congrArg String.toList details
          simp at chars
  | unresolved =>
      cases second with
      | resolved id => simp [graphEdge] at same
      | ambiguous count' =>
          obtain ⟨tail, details⟩ := linkDiagnostic_inj
            (ImportRecord.node.inj (List.cons.inj same).1)
          have chars := congrArg String.toList details
          simp at chars
      | unresolved => rfl

/-- The file links are what the hash of a review comment leaves out. -/
theorem reviewCommentRecords_eq_iff {comment : ReviewComment}
    (same : reviewCommitMarker ctx.commitIndex "pr_review_comment" comment.commitId =
      reviewCommitMarker commitIndex "pr_review_comment" comment.commitId) :
    reviewCommentRecords blake3 (ctx.reseed fileIndex commitIndex) comment =
        reviewCommentRecords blake3 ctx comment ↔
      ∀ path ∈ comment.path, (trailingNumber comment.pullRequestUrl).isSome →
        resolve fileIndex path = resolve ctx.fileIndex path := by
  rw [reviewCommentRecords, reviewCommentRecords]
  cases trailingNumber comment.pullRequestUrl with
  | none => simp
  | some number =>
      simp only [resolveReviewCommit_reseed rfl _ same]
      constructor
      · intro emitted path given _
        have records := congrArg Emitted.records emitted
        have recorded : ∀ link : Option ImportRecord,
            (link.map fun record => (record, true)).map Prod.fst = link := by
          rintro (_ | _) <;> rfl
        simp only [Emitted.records_extend, Emitted.records_push, edgeAndPack, recorded] at records
        have links := List.append_cancel_right (List.append_cancel_right records)
        rw [List.append_assoc, List.append_assoc] at links
        exact (resolveFileLink_reseed_iff given _).mp (List.append_cancel_left links)
      · intro resolved
        rw [resolveFileLink_reseed fun path given => resolved path given rfl]
        rfl

end Emitters

section Unchanged

variable {blake3 : String → String} {readers : Readers}

/-- Two file indexes link a path alike: they hold as many files under it, and the same one when
it is only one. -/
def LinksAlike (fileIndex other : StrMap (List String)) (path : String) : Prop :=
  (fileIndex[path]?.getD []).length = (other[path]?.getD []).length ∧
    ((fileIndex[path]?.getD []).length = 1 → fileIndex[path]?.getD [] = other[path]?.getD [])

/-- What the hash of a resource leaves out is the same in two payloads of it: the author and the
URL of an issue, the URL of a pull request, the file of a review comment. -/
def UnhashedAgree (ctx : Context) (fileIndex : StrMap (List String)) :
    Payload readers → Payload readers → Prop
  | .issue issue, .issue other =>
      other.user.map User.login = issue.user.map User.login ∧
        ctx.redact other.htmlUrl = ctx.redact issue.htmlUrl
  | .pull pr, .pull other => ctx.redact other.htmlUrl = ctx.redact pr.htmlUrl
  | .reviewComment comment, .reviewComment _ =>
      ∀ path ∈ comment.value.path, (trailingNumber comment.value.pullRequestUrl).isSome →
        LinksAlike fileIndex ctx.fileIndex path
  | _, _ => True

/-- After a hash was recorded, the key is unchanged while its hash is that one. -/
theorem isUnchanged_recordHash {state : State} {key hash other : String} :
    (state.recordHash key hash).isUnchanged key other = true ↔ hash = other := by
  simp [State.recordHash, State.isUnchanged]

/-- One item is parsed to one value. -/
theorem Parsed.value_eq {α : Type} {read : String → Option α} {parsed other : Parsed read}
    (items : parsed.item = other.item) : parsed.value = other.value := by
  have reads := parsed.isRead
  rw [items, other.isRead, Option.some.injEq] at reads
  exact reads.symm

/-- Skipping a payload whose hash is recorded loses nothing exactly when what the hash leaves
out has not changed. -/
theorem emitted_of_unchanged_iff (injective : Function.Injective blake3)
    (plain : ∀ text, '\x01' ∉ (blake3 text).toList) (state : State) (ctx : Context)
    (fileIndex commitIndex : StrMap (List String)) {recorded delivered : Payload readers}
    (resource : recorded.resource = delivered.resource)
    (unchanged : (state.recordHash recorded.resource.key (recorded.hash blake3 ctx)).isUnchanged
      delivered.resource.key (delivered.hash blake3 (ctx.reseed fileIndex commitIndex)) = true) :
    delivered.emitted blake3 (ctx.reseed fileIndex commitIndex) = recorded.emitted blake3 ctx ↔
      UnhashedAgree ctx fileIndex recorded delivered := by
  rw [resource, isUnchanged_recordHash] at unchanged
  cases recorded with
  | issue issue =>
      cases delivered with
      | issue other => exact issueRecords_eq_iff (issueKey_of_issueHash injective unchanged)
      | _ => simp [Payload.resource] at resource
  | pull pr =>
      cases delivered with
      | pull other => exact pullRecords_eq_iff (pullKey_of_pullHash injective unchanged)
      | _ => simp [Payload.resource] at resource
  | issueComment comment =>
      cases delivered with
      | issueComment other =>
          have values := Parsed.value_eq (injective unchanged)
          simp only [Payload.emitted, values, issueCommentRecords_reseed, UnhashedAgree]
      | _ => simp [Payload.resource] at resource
  | reviewComment comment =>
      cases delivered with
      | reviewComment other =>
          obtain ⟨items, markers⟩ := parts_of_reviewHash injective plain unchanged
          have values := Parsed.value_eq items
          rw [← values] at markers
          simp only [Payload.emitted, ← values, UnhashedAgree, LinksAlike, ← resolve_eq_iff]
          exact reviewCommentRecords_eq_iff markers
      | _ => simp [Payload.resource] at resource
  | review number review =>
      cases delivered with
      | review number' other =>
          obtain ⟨items, markers⟩ := parts_of_reviewHash injective plain unchanged
          have values := Parsed.value_eq items
          rw [← values] at markers
          simp only [Payload.resource, Resource.review.injEq] at resource
          simp only [Payload.emitted, ← values, ← resource.1, UnhashedAgree, iff_true]
          exact prReviewRecords_reseed number markers
      | _ => simp [Payload.resource] at resource

/-- An issue as a list endpoint delivers it, by the account that opened it. -/
def sampleIssue (login colour : String) : Issue where
  number := 7
  title := "Imports drop edges"
  state := "open"
  labels := [{ name := "bug", color := colour }]
  user := some ⟨login⟩
  updatedAt := "2026-01-02T00:00:00Z"
  htmlUrl := "https://github.com/o/r/issues/7"

/-- A run without a seeded graph. -/
def sampleContext : Context where
  sourceRepo := "o/r"
  transactionTime := "2026-01-03T00:00:00Z"
  redact := id
  fileIndex := ∅
  commitIndex := ∅

/-- Deserializers that reject every item. -/
def noReaders : Readers where
  issueComment := fun _ => none
  reviewComment := fun _ => none
  review := fun _ => none

/-- A text of hexadecimal digits has no separator. -/
theorem hexText_plain : ∀ text, '\x01' ∉ (hexText text).toList :=
  not_mem_hexText (by decide)

/-- A label that gets another colour: nothing is lost. -/
theorem recolouredIssue_emitted :
    (Payload.issue (sampleIssue "octocat" "0f0") : Payload noReaders).emitted hexText
        (sampleContext.reseed ∅ ∅) =
      (Payload.issue (sampleIssue "octocat" "f00") : Payload noReaders).emitted hexText
        sampleContext :=
  (emitted_of_unchanged_iff hexText_injective hexText_plain {} sampleContext ∅ ∅ rfl
    (isUnchanged_recordHash.mpr rfl)).mpr ⟨rfl, rfl⟩

/-- An account that is renamed: the issue is unchanged, and its task keeps the old author. -/
theorem renamedAuthor_lost :
    ¬ ∀ (blake3 : String → String), Function.Injective blake3 →
      (∀ text, '\x01' ∉ (blake3 text).toList) →
      ∀ (readers : Readers) (state : State) (ctx : Context)
        (fileIndex commitIndex : StrMap (List String)) (recorded delivered : Payload readers),
        recorded.resource = delivered.resource →
        (state.recordHash recorded.resource.key (recorded.hash blake3 ctx)).isUnchanged
          delivered.resource.key (delivered.hash blake3 (ctx.reseed fileIndex commitIndex)) = true →
        delivered.emitted blake3 (ctx.reseed fileIndex commitIndex) =
          recorded.emitted blake3 ctx := by
  intro always
  have kept := always hexText hexText_injective hexText_plain noReaders {} sampleContext ∅ ∅
    (.issue (sampleIssue "octocat" "f00")) (.issue (sampleIssue "hubot" "f00")) rfl
    (isUnchanged_recordHash.mpr rfl)
  have keys : issueKey (sampleIssue "octocat" "f00") = issueKey (sampleIssue "hubot" "f00") := rfl
  have authors : some "hubot" = some "octocat" := ((issueRecords_eq_iff keys).mp kept).1
  simp at authors

end Unchanged

end Egregore.Github
