import Egregore.Base.Text
import Egregore.Ir

/-!
# Record version gate

`schema_version.rs`: the `(domain, kind, version)` tuple of a record and the
ranges of it this build reads.
-/

namespace Egregore

open Base

/-- `Domain`. -/
inductive Domain where
  | codeGraph | agentMemory | verification | artifact | project | semantic | userContext | log
  deriving DecidableEq, Repr

/-- The serialized domain name. -/
def Domain.asStr : Domain → String
  | .codeGraph => "codegraph"
  | .agentMemory => "agent_memory"
  | .verification => "verification"
  | .artifact => "artifact"
  | .project => "project"
  | .semantic => "semantic"
  | .userContext => "user_context"
  | .log => "log"

def schemaVersion : Nat := 11
def agentMemorySchemaVersion : Nat := 1
def verificationSchemaVersion : Nat := 1
def artifactSchemaVersion : Nat := 1
def projectSchemaVersion : Nat := 1
def semanticSchemaVersion : Nat := 1
def userContextSchemaVersion : Nat := 1
def logSchemaVersion : Nat := 3

/-- `normalize_domain_name`. -/
def normalizeDomainName (domain : String) : String :=
  if domain = "code_graph" then Domain.codeGraph.asStr else domain

/-- Version identity of a record: its domain, its kind and its version. -/
structure RecordVersion where
  domain : String
  kind : String
  version : Nat
  deriving DecidableEq, Repr

/-- `RecordVersion::new`, which normalizes the domain. -/
def RecordVersion.new (domain kind : String) (version : Nat) : RecordVersion :=
  ⟨normalizeDomainName domain, kind, version⟩

/-- `domain_from_record_id`: the part before `:v` names the domain. -/
def domainFromRecordId (id : String) : Option String :=
  let head := match splitOnce [':', 'v'] id.toList with
    | some (before, _) => String.ofList before
    | none => id
  if head = "codegraph" ∨ head = "code_graph" then some Domain.codeGraph.asStr
  else if head = "agent_memory" then some Domain.agentMemory.asStr
  else if head = "verification" then some Domain.verification.asStr
  else if head = "artifact" then some Domain.artifact.asStr
  else if head = "project" then some Domain.project.asStr
  else if head = "semantic" then some Domain.semantic.asStr
  else if head = "user_context" then some Domain.userContext.asStr
  else if head = "log" then some Domain.log.asStr
  else none

/-- `domain_for_node_kind`. -/
def domainForNodeKind (kind : String) : Domain :=
  if kind ∈ ["SemanticDrift", "EmbeddingModel", "EmbeddingVector"] then .semantic
  else if kind ∈ ["PromoteCandidate", "PromotionPrompt", "PromotionDecision", "Preference",
    "WorkflowRule", "NamingDecision", "Constraint"] then .userContext
  else if kind ∈ ["Task", "AcceptanceCriterion", "ExternalLink", "Product", "Project", "Plan",
    "GitHubIssue", "PR", "Review", "ExternalIdentity", "ReviewStateTransition",
    "LocalTask"] then .project
  else if kind ∈ ["Artifact", "PatchArtifact"] then .artifact
  else if kind ∈ ["Verification", "CommandEvidence", "CommandRun", "TestRun", "CIStatus",
    "BenchmarkRun", "CoverageReport", "ProofResult"] then .verification
  else if kind ∈ ["Agent", "AgentSession", "Observation", "AgentRun", "AgentTurn", "ToolCall",
    "FileEdit", "Failure", "Decision", "CostUsage", "Retraction"] then .agentMemory
  else if kind ∈ ["LogSource", "ErrorSignature", "LogEvent", "LogOccurrenceBucket"] then .log
  else .codeGraph

/-- `domain_for_edge_label`. -/
def domainForEdgeLabel (label : String) : Domain :=
  match EdgeLabel.fromRelation label with
  | some .driftsFrom | some .driftsPrior | some .measuredBy => .semantic
  | some .proposedBy | some .promptedFor | some .decidedOn | some .materializedAs
  | some .revokedBy | some .scopedToRepo => .userContext
  | some .fingerprintedAs | some .capturedFrom | some .aggregates | some .frameResolvesTo
  | some .emittedDuring => .log
  | some .mergedAs | some .referencesTask => .project
  | some label => if label.isCodegraphTopologyLabel then .codeGraph else .agentMemory
  | none => .agentMemory

/-- `ACCEPTED_RECORD_VERSION_RANGES`, as `(domain, least, greatest)`. -/
def acceptedRecordVersionRanges : List (String × Nat × Nat) := [
  ("codegraph", 1, schemaVersion),
  ("agent_memory", agentMemorySchemaVersion, agentMemorySchemaVersion),
  ("verification", verificationSchemaVersion, verificationSchemaVersion),
  ("artifact", artifactSchemaVersion, artifactSchemaVersion),
  ("project", projectSchemaVersion, projectSchemaVersion),
  ("semantic", semanticSchemaVersion, semanticSchemaVersion),
  ("user_context", userContextSchemaVersion, userContextSchemaVersion),
  ("log", 2, logSchemaVersion)]

/-- `is_known_record_version`: the kind is not checked. -/
def isKnownRecordVersion (version : RecordVersion) : Bool :=
  acceptedRecordVersionRanges.any fun (domain, least, greatest) =>
    domain = version.domain ∧ least ≤ version.version ∧ version.version ≤ greatest

/-- `record_version`. -/
def recordVersion : GraphRecord → RecordVersion
  | .node record =>
      let domain := ((record.domain.map normalizeDomainName).or (domainFromRecordId record.id)).getD
        (domainForNodeKind record.kind.asStr).asStr
      .new domain record.kind.asStr record.schemaVersion
  | .edge record =>
      let domain := (domainFromRecordId record.id).getD
        (domainForEdgeLabel record.label.asStr).asStr
      .new domain record.label.asStr record.schemaVersion
  | .tombstone record =>
      let domain := ((domainFromRecordId record.id).or (domainFromRecordId record.deletedId)).getD
        Domain.codeGraph.asStr
      .new domain "Tombstone" record.schemaVersion

/-- `unknown_schema_version`, the diagnostic for a version this build cannot read. -/
structure UnknownSchemaVersion where
  code : String
  version : RecordVersion
  deriving DecidableEq, Repr

/-- `UnknownSchemaVersion::new`. -/
def UnknownSchemaVersion.new (version : RecordVersion) : UnknownSchemaVersion :=
  ⟨"unknown_schema_version", version⟩

/-- `validate_record_version`. -/
def validateRecordVersion (record : GraphRecord) : Except UnknownSchemaVersion Unit :=
  let version := recordVersion record
  if isKnownRecordVersion version then .ok () else .error (.new version)

end Egregore
