import Egregore.Base.BreadthFirst
import Egregore.Base.Tally
import Egregore.Base.Text
import Egregore.Incremental
import Mathlib.Data.List.Sort

/-!
# Evidence bundles

`bundle.rs`: the records that references connect to a root, scrubbed, and the checks that
verify them offline. Redaction, the secret scan, the citation audit, the hash and the JSON
text of a record are parameters.
-/

namespace Egregore.Bundle

open Base

section Records

/-- A payload handle: `OutputHandle` or `PatchHandle`. -/
structure PayloadHandle where
  inline : Option String := none
  rest : List (String × String) := []
  deriving DecidableEq, Repr

/-- `SourceSnapshotPayload`. -/
structure SourceSnapshot where
  head : SnapshotHead
  repositoryId : String
  rest : List (String × String) := []
  deriving DecidableEq

/-- The user-context fields of a node. -/
structure UserContext where
  approvalDecisionId : Option String := none
  materializedRecordId : Option String := none
  proposedRuleText : Option String := none
  promptText : Option String := none
  decisionRationale : Option String := none
  editedRuleText : Option String := none
  ruleText : Option String := none
  actionSummary : Option String := none
  constraintText : Option String := none
  rest : List (String × String) := []
  deriving DecidableEq, Repr

/-- A `GraphRecord::Node` with the fields that a bundle reads or scrubs; `rest` holds the other
serialized fields. -/
structure Node where
  id : String
  kind : NodeKind
  repoRelativePath : Option String := none
  name : Option String := none
  entityId : Option String := none
  summary : String := ""
  supersededBy : Option String := none
  parentTaskId : Option String := none
  verificationLinkId : Option String := none
  sourceExternalLinkId : Option String := none
  linkedPatchId : Option String := none
  linkedTurnId : Option String := none
  producedEvidenceId : Option String := none
  evidenceLinks : Option (List EvidenceLink) := none
  sourceSnapshot : Option SourceSnapshot := none
  userContext : UserContext := {}
  text : Option String := none
  validationSummary : Option String := none
  argumentsSummary : Option String := none
  argumentsHandle : Option PayloadHandle := none
  resultHandle : Option PayloadHandle := none
  stdoutHandle : Option PayloadHandle := none
  stderrHandle : Option PayloadHandle := none
  patchHandle : Option PayloadHandle := none
  bodyHandle : Option PayloadHandle := none
  diffHunkHandle : Option PayloadHandle := none
  authorEmail : Option String := none
  authorName : Option String := none
  title : Option String := none
  rest : List (String × String) := []
  deriving DecidableEq

/-- A graph record, as a bundle sees it. -/
inductive Record where
  | node (record : Node)
  | edge (record : EdgeRecord)
  | tombstone (record : TombstoneRecord)
  deriving DecidableEq

/-- The record ID. -/
def Record.id : Record → String
  | .node record => record.id
  | .edge record => record.id
  | .tombstone record => record.id

/-- What a bundle takes from other modules and libraries. -/
structure BundleEnv where
  /-- `redact_value`. -/
  redactValue : String → String
  /-- `detect_secret`: the class of the first secret. -/
  detectSecret : String → Option String
  /-- `blake3::hash`, in hexadecimal. -/
  blake3 : String → String
  /-- `serde_json::to_string`, which no record makes fail. -/
  toJson : Record → String
  /-- `citation_trust_class`. -/
  citationTrustClass : Record → String
  /-- `classify_record_external_with_provenance` over a closure: the trust class, and whether the
  record is cited. -/
  classify : List Record → Record → String × Bool
  /-- Whether a share is below 0.95. -/
  belowThreshold : Nat → Nat → Bool
  /-- A share in percent, with two decimals. -/
  percent : Nat → Nat → String

/-- `UnresolvedLink`. -/
structure UnresolvedLink where
  sourceId : String
  targetHandle : String
  relation : String
  deriving DecidableEq, Repr

/-- `BundleRecord`. -/
structure BundleRecord where
  record : Record
  hash : String
  deriving DecidableEq

/-- `BundleManifest`. -/
structure BundleManifest where
  rootSelector : String
  sourceQuery : String
  snapshot : Option SnapshotHead
  repositoryIdentity : String
  egregoreVersion : String
  includedRecordCounts : StrMap Nat
  omittedRecordCounts : Nat
  rootRecordIds : List String

/-- `EvidenceBundle`. -/
structure EvidenceBundle where
  manifest : BundleManifest
  records : List BundleRecord
  unresolvedLinks : List UnresolvedLink

/-- The errors of an export. -/
inductive BundleError where
  | invalidArgument (message : String)
  | bundleVerificationFailed (message : String)
  deriving DecidableEq, Repr

end Records

section References

/-- `collect_references`. -/
def collectReferences : Record → List String
  | .edge record => [record.source, record.target]
  | .node record =>
      record.supersededBy.toList ++ record.parentTaskId.toList ++
        record.verificationLinkId.toList ++ record.sourceExternalLinkId.toList ++
        record.linkedPatchId.toList ++ record.linkedTurnId.toList ++
        record.producedEvidenceId.toList ++ record.userContext.approvalDecisionId.toList ++
        record.userContext.materializedRecordId.toList ++
        (record.evidenceLinks.getD []).filterMap EvidenceLink.targetRecordId ++
        (record.sourceSnapshot.map SourceSnapshot.repositoryId).toList
  | .tombstone record => [record.deletedId]

/-- The inline references of a node, each with its relation, as the export adds them. -/
def Node.inlineReferences (record : Node) : List (String × String) :=
  let field (target : Option String) (relation : String) : List (String × String) :=
    target.toList.map (·, relation)
  field record.supersededBy "superseded_by" ++ field record.parentTaskId "parent_task_id" ++
    field record.verificationLinkId "verification_link_id" ++
    field record.sourceExternalLinkId "source_external_link_id" ++
    field record.linkedPatchId "linked_patch_id" ++ field record.linkedTurnId "linked_turn_id" ++
    field record.producedEvidenceId "produced_evidence_id" ++
    field record.userContext.approvalDecisionId "approval_decision_id" ++
    field record.userContext.materializedRecordId "materialized_record_id" ++
    ((record.evidenceLinks.getD []).filterMap fun link =>
      link.targetRecordId.map (·, link.relation)) ++
    field (record.sourceSnapshot.map SourceSnapshot.repositoryId) "repository_snapshot"

/-- What a record adds to the adjacency lists: the entry's key, its neighbour and relation. -/
def Record.adjacency : Record → List (String × String × String)
  | .edge record => [
      (record.id, record.source, record.label.asStr),
      (record.id, record.target, record.label.asStr),
      (record.source, record.id, record.label.asStr),
      (record.target, record.id, record.label.asStr)]
  | .node record =>
      record.inlineReferences.flatMap fun reference => [
        (record.id, reference.1, reference.2),
        (reference.1, record.id, reference.2)]
  | .tombstone record => [
      (record.id, record.deletedId, "deleted_id"),
      (record.deletedId, record.id, "deleted_id")]

/-- The adjacency lists of all versions of all records. -/
def adjacencyLists (records : List Record) : StrMap (List (String × String)) :=
  (records.flatMap Record.adjacency).foldl (pushEntry some) ∅

/-- The record that was indexed last under an ID. -/
def recordsById (records : List Record) : StrMap Record :=
  records.foldl (insertEntry fun record => some (record.id, record)) ∅

/-- The prefix and the value of a selector. -/
def splitSelector (selector : String) : Option (String × String) :=
  (splitOnce [':'] selector.toList).map fun parts =>
    (String.ofList parts.1, String.ofList parts.2)

/-- Whether a selector's prefix and value match a record. -/
def Record.matchesSelector (kind value : String) (record : Record) : Bool :=
  match kind, record with
  | "id", record => record.id = value
  | "symbol", .node named => named.kind = .symbol && named.name = some value
  | "file", .node named => named.kind = .file && named.repoRelativePath = some value
  | "task", .node named =>
      named.kind.asStr = "Task" && (named.entityId = some value || named.id = value)
  | "memory", .node named =>
      ["Observation", "Decision", "Failure", "Lesson"].contains named.kind.asStr && named.id = value
  | _, _ => false

/-- `find_root_records`. -/
def findRootRecords (records : List Record) (selector : String) :
    Except BundleError (List Record) :=
  match splitSelector selector with
  | none =>
      .error (.invalidArgument
        ("invalid selector format: '" ++ selector ++ "', expected prefix:value"))
  | some (kind, value) =>
      match records.filter (Record.matchesSelector kind value) with
      | [] => .error (.invalidArgument ("no records matched selector: '" ++ selector ++ "'"))
      | roots => .ok roots

end References

section Scrub

/-- A handle without its inline content. -/
def PayloadHandle.scrub (handle : PayloadHandle) : PayloadHandle := { handle with inline := none }

/-- An e-mail address, replaced by the start of its hash. -/
def redactEmail (env : BundleEnv) (email : String) : String :=
  "<REDACTED:email:" ++ String.ofList ((env.blake3 email).toList.take 12) ++ ">"

/-- `scrub_record`. -/
def scrubRecord (env : BundleEnv) : Record → Record
  | .node record => .node { record with
      text := none
      validationSummary := none
      argumentsSummary := none
      argumentsHandle := record.argumentsHandle.map PayloadHandle.scrub
      resultHandle := record.resultHandle.map PayloadHandle.scrub
      stdoutHandle := record.stdoutHandle.map PayloadHandle.scrub
      stderrHandle := record.stderrHandle.map PayloadHandle.scrub
      patchHandle := record.patchHandle.map PayloadHandle.scrub
      bodyHandle := record.bodyHandle.map PayloadHandle.scrub
      diffHunkHandle := record.diffHunkHandle.map PayloadHandle.scrub
      userContext := { record.userContext with
        proposedRuleText := none
        promptText := none
        decisionRationale := none
        editedRuleText := none
        ruleText := none
        actionSummary := none
        constraintText := none }
      authorEmail := record.authorEmail.map (redactEmail env)
      title := record.title.map env.redactValue
      authorName := record.authorName.map env.redactValue
      summary := env.redactValue record.summary }
  | .edge record => .edge { record with summary := env.redactValue record.summary }
  | .tombstone record => .tombstone record

/-- `first_unscrubbed_field`. -/
def firstUnscrubbedField : Record → Option String
  | .node record =>
      let kept (handle : Option PayloadHandle) : Bool :=
        handle.any fun handle => handle.inline.isSome
      if record.text.isSome then some "text"
      else if record.validationSummary.isSome then some "validation_summary"
      else if record.argumentsSummary.isSome then some "arguments_summary"
      else if kept record.argumentsHandle then some "arguments_handle.inline"
      else if kept record.resultHandle then some "result_handle.inline"
      else if kept record.stdoutHandle then some "stdout_handle.inline"
      else if kept record.stderrHandle then some "stderr_handle.inline"
      else if kept record.patchHandle then some "patch_handle.inline"
      else if kept record.bodyHandle then some "body_handle.inline"
      else if kept record.diffHunkHandle then some "diff_hunk_handle.inline"
      else if record.userContext.proposedRuleText.isSome then
        some "user_context.proposed_rule_text"
      else if record.userContext.promptText.isSome then some "user_context.prompt_text"
      else if record.userContext.decisionRationale.isSome then
        some "user_context.decision_rationale"
      else if record.userContext.editedRuleText.isSome then some "user_context.edited_rule_text"
      else if record.userContext.ruleText.isSome then some "user_context.rule_text"
      else if record.userContext.actionSummary.isSome then some "user_context.action_summary"
      else if record.userContext.constraintText.isSome then some "user_context.constraint_text"
      else none
  | _ => none

end Scrub

section Traversal

/-- What a traversal has collected. -/
structure Traversal where
  includedRecords : List Record := []
  unresolvedLinks : List UnresolvedLink := []

/-- Whether a neighbour is one that the record itself refers to. -/
def Record.isOutgoing (record : Record) (target : String) : Bool :=
  match record with
  | .edge link => link.source = target || link.target = target
  | .node _ => (collectReferences record).contains target
  | .tombstone deletion => deletion.deletedId = target

variable (byId : StrMap Record) (adjacent : StrMap (List (String × String)))

/-- The neighbours of a record that are records. -/
def presentNeighbours (id : String) : List String :=
  if byId.contains id then
    (adjacent.getD id []).filterMap fun neighbour =>
      if byId.contains neighbour.1 then some neighbour.1 else none
  else []

/-- Include a record, and list its references to IDs without a record. -/
def includeRecord (id : String) (traversal : Traversal) : Traversal :=
  match byId[id]? with
  | none => traversal
  | some record => {
      includedRecords := traversal.includedRecords ++ [record]
      unresolvedLinks := traversal.unresolvedLinks ++
        (adjacent.getD id []).filterMap fun neighbour =>
          if !byId.contains neighbour.1 && record.isOutgoing neighbour.1 then
            some ⟨id, neighbour.1, neighbour.2⟩
          else none }

/-- The breadth-first traversal of `export_bundle`. A root that two records match is queued
twice: only a neighbour is checked against the visited ones. -/
def traverse (records : List Record) (rootIds : List String) : Traversal :=
  let byId := recordsById records
  let adjacent := adjacencyLists records
  let queue := rootIds.filter byId.contains
  breadthFirst (presentNeighbours byId adjacent) (includeRecord byId adjacent)
    (queue.length + records.length) queue queue {}

end Traversal

section Export

variable (env : BundleEnv)

/-- The order of unresolved links. -/
def linkOrder (link other : UnresolvedLink) : Ordering :=
  tripleOrder (link.sourceId, link.targetHandle, link.relation)
    (other.sourceId, other.targetHandle, other.relation)

/-- The canonical order of bundle records: by ID, then by JSON text. -/
abbrev recordOrder : Record → Record → Ordering :=
  compareLex (compareOn fun record => asBytes record.id)
    (compareOn fun record => asBytes (env.toJson record))

/-- A record as a bundle carries it. -/
def bundleRecord (record : Record) : BundleRecord :=
  let scrubbed := scrubRecord env record
  ⟨scrubbed, env.blake3 (env.toJson scrubbed)⟩

/-- The ID and the snapshot of the first repository node. -/
def repositoryOf (records : List Record) : String × Option SnapshotHead :=
  let repository := records.findSome? fun
    | .node node => if node.kind = .repository then some node else none
    | _ => none
  match repository with
  | some node => (node.id, node.sourceSnapshot.map SourceSnapshot.head)
  | none => ("unknown", none)

/-- How many records are cited, and whether all those of a trust class other than source facts
are. -/
def citationCoverage (records : List BundleRecord) : Nat × Bool :=
  let classify := env.classify (records.map BundleRecord.record)
  (records.countP fun entry => (classify entry.record).2,
    records.all fun entry =>
      (classify entry.record).1 = "source_fact" || (classify entry.record).2)

/-- Whether too few records of a bundle are cited. -/
def belowCoverage (records : List BundleRecord) : Bool :=
  0 < records.length && env.belowThreshold (citationCoverage env records).1 records.length

/-- How many records of each trust class there are. -/
def includedRecordCounts (records : List BundleRecord) : StrMap Nat :=
  records.foldl (tally fun entry => env.citationTrustClass entry.record) ∅

/-- `export_bundle`. -/
def exportBundle (records : List Record) (rootSelector egregoreVersion : String) :
    Except BundleError EvidenceBundle := do
  let roots ← findRootRecords records rootSelector
  let rootIds := roots.map Record.id
  let sourceQuery := (splitSelector rootSelector).elim "custom" Prod.fst
  let traversal := traverse records rootIds
  let bundleRecords := (traversal.includedRecords.map (bundleRecord env)).insertionSort
    fun entry other => (recordOrder env entry.record other.record).isLE
  let (repositoryIdentity, snapshot) := repositoryOf records
  if belowCoverage env bundleRecords then
    throw (.bundleVerificationFailed
      ("below_coverage_threshold: overall coverage is " ++
        env.percent (citationCoverage env bundleRecords).1 bundleRecords.length ++
        "%, required 95%"))
  if !(citationCoverage env bundleRecords).2 then
    throw (.bundleVerificationFailed
      ("below_coverage_threshold: non-code trust-class records must have 100% coverage"))
  return {
    manifest := {
      rootSelector := rootSelector
      sourceQuery := sourceQuery
      snapshot := snapshot
      repositoryIdentity := repositoryIdentity
      egregoreVersion := egregoreVersion
      includedRecordCounts := includedRecordCounts env bundleRecords
      omittedRecordCounts := 0
      rootRecordIds := rootIds }
    records := bundleRecords
    unresolvedLinks := traversal.unresolvedLinks.insertionSort fun link other =>
      (linkOrder link other).isLE }

end Export

section Verify

variable (env : BundleEnv)

/-- `VerificationVerdict`. -/
structure VerificationVerdict where
  passed : Bool
  detail : String
  deriving DecidableEq, Repr

/-- `VerificationReport`. -/
structure VerificationReport where
  ok : Bool
  integrity : VerificationVerdict
  coverage : VerificationVerdict
  safety : VerificationVerdict
  deriving DecidableEq, Repr

/-- The verdict of a check that fails with a detail, or passes. -/
def verdict (failure : Option String) (passed : String) : VerificationVerdict :=
  ⟨failure.isNone, failure.getD passed⟩

/-- The first record whose hash does not match. -/
def hashMismatch (records : List BundleRecord) : Option String :=
  records.zipIdx.findSome? fun (entry, index) =>
    let computed := env.blake3 (env.toJson entry.record)
    if computed ≠ entry.hash then
      some ("Integrity failure: record hash mismatch at index " ++ toString index ++
        ". Record ID: " ++ entry.record.id ++ ". Expected: " ++ entry.hash ++ ", computed: " ++
        computed)
    else none

/-- The first record that comes after its successor. -/
def orderFailure (records : List BundleRecord) : Option String :=
  (records.zip records.tail).zipIdx.findSome? fun ((entry, next), index) =>
    if !(recordOrder env entry.record next.record).isLE then
      some ("Integrity failure: canonical ordering is unstable. Record at index " ++
        toString index ++ " (" ++ entry.record.id ++ ") is after record at index " ++
        toString (index + 1) ++ " (" ++ next.record.id ++ ")")
    else none

/-- The integrity check of `verify_bundle`. -/
def integrityFailure (bundle : EvidenceBundle) : Option String :=
  let sum := (bundle.manifest.includedRecordCounts.toList.map Prod.snd).sum
  if sum ≠ bundle.records.length then
    some ("Integrity failure: manifest included_record_counts sum (" ++ toString sum ++
      ") does not match records length (" ++ toString bundle.records.length ++ ")")
  else (hashMismatch env bundle.records).orElse fun _ => orderFailure env bundle.records

/-- The coverage check of `verify_bundle`. -/
def coverageFailure (bundle : EvidenceBundle) : Option String :=
  let missing := bundle.manifest.rootRecordIds.find? fun rootId =>
    !bundle.records.any fun entry => entry.record.id = rootId
  match missing with
  | some rootId =>
      some ("Coverage failure: root record ID " ++ rootId ++ " is not included in the bundle")
  | none =>
      if belowCoverage env bundle.records then
        some ("Coverage failure: overall citation coverage is " ++
          env.percent (citationCoverage env bundle.records).1 bundle.records.length ++
          "% (below 95% threshold)")
      else if !(citationCoverage env bundle.records).2 then
        some "Coverage failure: non-code trust-class records must have 100% coverage"
      else none

/-- The safety check of `verify_bundle`. -/
def safetyFailure (bundle : EvidenceBundle) : Option String :=
  bundle.records.findSome? fun entry =>
    match env.detectSecret (env.toJson entry.record) with
    | some secretClass =>
        some ("Safety failure: record " ++ entry.record.id ++
          " contains unredacted secret class: " ++ secretClass)
    | none =>
        (firstUnscrubbedField entry.record).map fun field =>
          "Safety failure: record " ++ entry.record.id ++ " retains scrubbed field '" ++ field ++ "'"

/-- `verify_bundle`. -/
def verifyBundle (bundle : EvidenceBundle) : VerificationReport :=
  let integrity := verdict (integrityFailure env bundle)
    "Manifest parses, record hashes match, canonical ordering is stable"
  let coverage := verdict (coverageFailure env bundle)
    "All selected roots and directly linked evidence meet the citable-handle threshold"
  let safety := verdict (safetyFailure env bundle)
    "No raw protected payload classes or unredacted secrets found"
  ⟨integrity.passed && coverage.passed && safety.passed, integrity, coverage, safety⟩

end Verify

end Egregore.Bundle
