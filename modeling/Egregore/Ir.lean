import Mathlib.Tactic.Common

/-!
# Graph records

The record model of `ir.rs`: nodes, edges and tombstones with the closed
vocabularies of node kinds and edge labels. The fields a modelled function reads
keep their own names. The others are kept together as `rest`, the remaining
serialized fields, so that equality of records still sees every field.
-/

namespace Egregore

/-- `NodeKind`, in declaration order. -/
inductive NodeKind where
  | repository | file | moduleDecl | symbol | importDecl | diagnostic | panicRiskSite
  | debtMarker | unsafeSite | lintSuppression | dependencyDeclaration | scanCoverage
  | historyReplayWindow | historyReplayTip | commit | change | semanticDrift | embeddingModel
  | embeddingVector | agent | agentSession | observation | task | acceptanceCriterion
  | externalLink | product | project | plan | gitHubIssue | pr | review | externalIdentity
  | reviewStateTransition | localTask | artifact | verification | commandEvidence | agentRun
  | agentTurn | toolCall | commandRun | fileEdit | patchArtifact | adr | prd | planDoc
  | failure | decision | testRun | ciStatus | benchmarkRun | coverageReport | proofResult
  | promoteCandidate | promotionPrompt | promotionDecision | preference | workflowRule
  | namingDecision | constraint | costUsage | retraction | retirementReceipt
  | reinstatementReceipt | logSource | errorSignature | logEvent | logOccurrenceBucket
  deriving DecidableEq, Repr

namespace NodeKind

/-- The `PascalCase` serialization of a node kind. -/
def asStr : NodeKind → String
  | .repository => "Repository"
  | .file => "File"
  | .moduleDecl => "Module"
  | .symbol => "Symbol"
  | .importDecl => "Import"
  | .diagnostic => "Diagnostic"
  | .panicRiskSite => "PanicRiskSite"
  | .debtMarker => "DebtMarker"
  | .unsafeSite => "UnsafeSite"
  | .lintSuppression => "LintSuppression"
  | .dependencyDeclaration => "DependencyDeclaration"
  | .scanCoverage => "ScanCoverage"
  | .historyReplayWindow => "HistoryReplayWindow"
  | .historyReplayTip => "HistoryReplayTip"
  | .commit => "Commit"
  | .change => "Change"
  | .semanticDrift => "SemanticDrift"
  | .embeddingModel => "EmbeddingModel"
  | .embeddingVector => "EmbeddingVector"
  | .agent => "Agent"
  | .agentSession => "AgentSession"
  | .observation => "Observation"
  | .task => "Task"
  | .acceptanceCriterion => "AcceptanceCriterion"
  | .externalLink => "ExternalLink"
  | .product => "Product"
  | .project => "Project"
  | .plan => "Plan"
  | .gitHubIssue => "GitHubIssue"
  | .pr => "PR"
  | .review => "Review"
  | .externalIdentity => "ExternalIdentity"
  | .reviewStateTransition => "ReviewStateTransition"
  | .localTask => "LocalTask"
  | .artifact => "Artifact"
  | .verification => "Verification"
  | .commandEvidence => "CommandEvidence"
  | .agentRun => "AgentRun"
  | .agentTurn => "AgentTurn"
  | .toolCall => "ToolCall"
  | .commandRun => "CommandRun"
  | .fileEdit => "FileEdit"
  | .patchArtifact => "PatchArtifact"
  | .adr => "ADR"
  | .prd => "PRD"
  | .planDoc => "PlanDoc"
  | .failure => "Failure"
  | .decision => "Decision"
  | .testRun => "TestRun"
  | .ciStatus => "CIStatus"
  | .benchmarkRun => "BenchmarkRun"
  | .coverageReport => "CoverageReport"
  | .proofResult => "ProofResult"
  | .promoteCandidate => "PromoteCandidate"
  | .promotionPrompt => "PromotionPrompt"
  | .promotionDecision => "PromotionDecision"
  | .preference => "Preference"
  | .workflowRule => "WorkflowRule"
  | .namingDecision => "NamingDecision"
  | .constraint => "Constraint"
  | .costUsage => "CostUsage"
  | .retraction => "Retraction"
  | .retirementReceipt => "RetirementReceipt"
  | .reinstatementReceipt => "ReinstatementReceipt"
  | .logSource => "LogSource"
  | .errorSignature => "ErrorSignature"
  | .logEvent => "LogEvent"
  | .logOccurrenceBucket => "LogOccurrenceBucket"

end NodeKind

/-- `EdgeLabel`, in declaration order. -/
inductive EdgeLabel where
  | contains | defines | imports | references | calls | implements | mentions | changedIn
  | parentOf | driftsFrom | driftsPrior | measuredBy | sessionOf | authoredBy | hasEvidence
  | observes | mentionsSymbol | touchedFile | producedPatch | producedEvidence | validatedBy
  | closesAcceptanceCriterion | ownedByTask | externalHandle | dependsOn | touchesFile
  | mergedAs | reviewsCommit | reviewedBy | requestedReviewFrom | transitionsReview | failedOn
  | explainsChange | referencesTask | contradicts | supersedes | proposedBy | promptedFor
  | decidedOn | materializedAs | revokedBy | scopedToRepo | relatesTo | fingerprintedAs
  | capturedFrom | aggregates | frameResolvesTo | emittedDuring | constructs | registersRoute
  deriving DecidableEq, Repr

namespace EdgeLabel

/-- `EdgeLabel::ALL`. -/
def all : List EdgeLabel := [
  .contains, .defines, .imports, .references, .calls, .implements, .mentions, .changedIn,
  .parentOf, .driftsFrom, .driftsPrior, .measuredBy, .sessionOf, .authoredBy, .hasEvidence,
  .observes, .mentionsSymbol, .touchedFile, .producedPatch, .producedEvidence, .validatedBy,
  .closesAcceptanceCriterion, .ownedByTask, .externalHandle, .dependsOn, .touchesFile,
  .mergedAs, .reviewsCommit, .reviewedBy, .requestedReviewFrom, .transitionsReview, .failedOn,
  .explainsChange, .referencesTask, .contradicts, .supersedes, .proposedBy, .promptedFor,
  .decidedOn, .materializedAs, .revokedBy, .scopedToRepo, .relatesTo, .fingerprintedAs,
  .capturedFrom, .aggregates, .frameResolvesTo, .emittedDuring, .constructs, .registersRoute]

/-- The wire string of a label. -/
def asStr : EdgeLabel → String
  | .contains => "CONTAINS"
  | .defines => "DEFINES"
  | .imports => "IMPORTS"
  | .references => "REFERENCES"
  | .calls => "CALLS"
  | .implements => "IMPLEMENTS"
  | .mentions => "MENTIONS"
  | .changedIn => "CHANGED_IN"
  | .parentOf => "PARENT_OF"
  | .driftsFrom => "DRIFTS_FROM"
  | .driftsPrior => "DRIFTS_PRIOR"
  | .measuredBy => "MEASURED_BY"
  | .sessionOf => "SESSION_OF"
  | .authoredBy => "AUTHORED_BY"
  | .hasEvidence => "HAS_EVIDENCE"
  | .observes => "OBSERVES"
  | .mentionsSymbol => "MENTIONS_SYMBOL"
  | .touchedFile => "TOUCHED_FILE"
  | .producedPatch => "PRODUCED_PATCH"
  | .producedEvidence => "PRODUCED_EVIDENCE"
  | .validatedBy => "VALIDATED_BY"
  | .closesAcceptanceCriterion => "CLOSES_ACCEPTANCE_CRITERION"
  | .ownedByTask => "OWNED_BY_TASK"
  | .externalHandle => "EXTERNAL_HANDLE"
  | .dependsOn => "DEPENDS_ON"
  | .touchesFile => "TOUCHES_FILE"
  | .mergedAs => "MERGED_AS"
  | .reviewsCommit => "REVIEWS_COMMIT"
  | .reviewedBy => "REVIEWED_BY"
  | .requestedReviewFrom => "REQUESTED_REVIEW_FROM"
  | .transitionsReview => "TRANSITIONS_REVIEW"
  | .failedOn => "FAILED_ON"
  | .explainsChange => "EXPLAINS_CHANGE"
  | .referencesTask => "REFERENCES_TASK"
  | .contradicts => "CONTRADICTS"
  | .supersedes => "SUPERSEDES"
  | .proposedBy => "PROPOSED_BY"
  | .promptedFor => "PROMPTED_FOR"
  | .decidedOn => "DECIDED_ON"
  | .materializedAs => "MATERIALIZED_AS"
  | .revokedBy => "REVOKED_BY"
  | .scopedToRepo => "SCOPED_TO_REPO"
  | .relatesTo => "RELATES_TO"
  | .fingerprintedAs => "FINGERPRINTED_AS"
  | .capturedFrom => "CAPTURED_FROM"
  | .aggregates => "AGGREGATES"
  | .frameResolvesTo => "FRAME_RESOLVES_TO"
  | .emittedDuring => "EMITTED_DURING"
  | .constructs => "CONSTRUCTS"
  | .registersRoute => "REGISTERS_ROUTE"

/-- `from_relation` inverts `as_str`; the source writes the same table twice. -/
def fromRelation (relation : String) : Option EdgeLabel :=
  all.find? fun label => label.asStr = relation

/-- The labels reserved for the extractor's own topology. -/
def isCodegraphTopologyLabel : EdgeLabel → Bool
  | .contains | .defines | .imports | .references | .calls | .implements | .mentions
  | .changedIn | .parentOf | .driftsFrom | .driftsPrior | .measuredBy | .constructs
  | .registersRoute => true
  | _ => false

end EdgeLabel

/-- Call resolution status of a `CALLS` edge. -/
inductive CallResolution where
  | resolved | ambiguous | unresolved | unresolvedDispatch
  deriving DecidableEq, Repr

/-- `SnapshotHead`: `no_git` also below the root of a repository. -/
inductive SnapshotHead where
  | commit (sha : String)
  | noGit
  | unbornHead
  deriving DecidableEq

/-- Git and bitemporal provenance of a history-backed record. -/
structure TemporalMetadata where
  gitCommit : String
  gitParentCommits : List String := []
  validTime : String
  authorTime : Option String := none
  observedAt : String
  validTimeSource : Option String := none
  deriving DecidableEq, Repr

/-- The producer envelope; `rest` holds its version and component fields. -/
structure Producer where
  producerStartedAt : String
  rest : List (String × String) := []
  deriving DecidableEq, Repr

/-- One inline evidence citation. -/
structure EvidenceLink where
  targetRecordId : Option String
  targetDomain : String
  relation : String
  rest : List (String × String) := []
  deriving DecidableEq, Repr

/-- The user-context fields that carry citations, and the others. -/
structure UserContextFields where
  supportingEvidence : Option (List EvidenceLink) := none
  contradictingEvidence : Option (List EvidenceLink) := none
  rest : List (String × String) := []
  deriving DecidableEq, Repr

/-- A `GraphRecord::Node`. -/
structure NodeRecord where
  id : String
  kind : NodeKind
  schemaVersion : Nat
  repoRelativePath : Option String := none
  name : Option String := none
  language : Option String := none
  temporal : Option TemporalMetadata := none
  evidenceLinks : Option (List EvidenceLink) := none
  summary : String := ""
  domain : Option String := none
  userContext : UserContextFields := {}
  producer : Option Producer := none
  rest : List (String × String) := []
  deriving DecidableEq, Repr

/-- A `GraphRecord::Edge`. -/
structure EdgeRecord where
  id : String
  schemaVersion : Nat
  label : EdgeLabel
  source : String
  target : String
  resolution : Option CallResolution := none
  temporal : Option TemporalMetadata := none
  summary : String := ""
  producer : Option Producer := none
  rest : List (String × String) := []
  deriving DecidableEq, Repr

/-- A `GraphRecord::Tombstone`. -/
structure TombstoneRecord where
  id : String
  schemaVersion : Nat
  deletedId : String
  summary : String := ""
  producer : Option Producer := none
  deriving DecidableEq, Repr

/-- A line of a graph: a node, an edge, or a deletion marker. -/
inductive GraphRecord where
  | node (record : NodeRecord)
  | edge (record : EdgeRecord)
  | tombstone (record : TombstoneRecord)
  deriving DecidableEq, Repr

namespace GraphRecord

/-- The stable record ID. -/
def id : GraphRecord → String
  | .node record => record.id
  | .edge record => record.id
  | .tombstone record => record.id

@[simp] theorem id_node (record : NodeRecord) : (node record).id = record.id := rfl

@[simp] theorem id_edge (record : EdgeRecord) : (edge record).id = record.id := rfl

@[simp] theorem id_tombstone (record : TombstoneRecord) : (tombstone record).id = record.id := rfl

/-- The kind of a node record. -/
def nodeKind? : GraphRecord → Option NodeKind
  | .node record => some record.kind
  | _ => none

/-- The temporal stamp of a node or edge. -/
def temporal : GraphRecord → Option TemporalMetadata
  | .node record => record.temporal
  | .edge record => record.temporal
  | .tombstone _ => none

/-- A write of `id`: a node or an edge record carrying that stable ID. -/
def writes (id : String) : GraphRecord → Bool
  | .node record => record.id = id
  | .edge record => record.id = id
  | .tombstone _ => false

/-- An edge write of `id`. -/
def writesEdge (id : String) : GraphRecord → Bool
  | .edge record => record.id = id
  | _ => false

/-- A node write of `id`. -/
def writesNode (id : String) : GraphRecord → Bool
  | .node record => record.id = id
  | _ => false

/-- A deletion of `id`: a tombstone whose `deleted_id` it is. -/
def deletes (id : String) : GraphRecord → Bool
  | .tombstone record => record.deletedId = id
  | _ => false

/-- An edge that has `id` at one of its ends. -/
def touches (id : String) : GraphRecord → Bool
  | .edge record => record.source = id || record.target = id
  | _ => false

theorem writes_eq_true {id : String} {record : GraphRecord} :
    record.writes id = true ↔ record.writesNode id = true ∨ record.writesEdge id = true := by
  cases record <;> simp [writes, writesNode, writesEdge]

theorem not_deletes_of_writes {id other : String} {record : GraphRecord}
    (written : record.writes id = true) : record.deletes other = false := by
  cases record <;> simp_all [writes, deletes]

theorem id_of_writes {id : String} {record : GraphRecord}
    (written : record.writes id = true) : record.id = id := by
  cases record <;> simp_all [writes]

/-- Blank the producer start time, the one field that differs between two
otherwise equal runs of a producer. -/
def withClearedProducerStartedAt : GraphRecord → GraphRecord
  | .node record =>
      .node { record with
        producer := record.producer.map fun producer => { producer with producerStartedAt := "" } }
  | .edge record =>
      .edge { record with
        producer := record.producer.map fun producer => { producer with producerStartedAt := "" } }
  | .tombstone record =>
      .tombstone { record with
        producer := record.producer.map fun producer => { producer with producerStartedAt := "" } }

end GraphRecord

end Egregore
