import Egregore.Base.Flood
import Egregore.Query.Repo

/-!
# Repository eviction

`repo_evict.rs`: what an eviction of one repository tombstones, and what a repeated one
still has to. Ownership comes from the repository index and is extended over evidence
edges. A store is the log of its writes, with the two reads that a plan is made from.
-/

namespace Egregore

open Base

/-- `EvictionRequest`. -/
structure EvictionRequest where
  selector : String
  reason : String
  evictedBy : String
  transactionTime : Option String := none

/-- `EvictError`. -/
inductive EvictError where
  | missingReason
  | missingActor
  | invalidTransactionTime (value message : String)
  | unknownSelector (selector : String)
  | ambiguousSelector (selector : String) (candidates : List String)
  deriving DecidableEq, Repr

/-- The conversion of a selector error. -/
def EvictError.ofSelectorError : RepositorySelectorError → EvictError
  | .unknown selector => .unknownSelector selector
  | .ambiguous selector candidates => .ambiguousSelector selector candidates

/-- `EvictedRecord`. -/
structure EvictedRecord where
  recordId : String
  domain : String
  kind : String
  deriving DecidableEq, Repr

/-- `CrossRepoCitation`. -/
structure CrossRepoCitation where
  citingId : String
  citingRepository : Option String
  evictedTarget : String
  deriving DecidableEq, Repr

/-- `RepoEvictionEvent`. -/
structure RepoEvictionEvent where
  eventId : String
  repositoryId : String
  evictedBy : String
  reason : String
  transactionTime : String
  tombstoneIds : List String
  deriving DecidableEq, Repr

/-- `EvictionPlan`. -/
structure EvictionPlan where
  repositoryId : String
  repositoryDisplay : Option String
  alreadyEvicted : Bool
  repair : Bool
  evicted : List EvictedRecord
  byDomain : StrMap Nat
  unattributable : List EvictedRecord
  sharedCrossRepo : List EvictedRecord
  temporalSnapshotsRetained : List EvictedRecord
  crossRepoCitations : List CrossRepoCitation
  event : RepoEvictionEvent

/-- What a plan takes from its libraries: times, redaction, and hashes of ID parts. -/
structure EvictionEnv where
  parseFromRfc3339 : String → Except String Instant
  redactValue : String → String
  isRedacted : String → Bool
  agentMemoryStableId : List String → String
  /-- The hash of a tombstone's target. -/
  evictionHash : String → String

/-- `PLAN_DOMAINS`. -/
def planDomains : List String :=
  ["codegraph", "semantic", "agent_memory", "project", "artifact", "verification", "log"]

def redactionPolicyV1 : String := "v1"

section Ids

variable (env : EvictionEnv)

/-- `eviction_event_id`. -/
def evictionEventId (repositoryId : String) : String :=
  env.agentMemoryStableId ["node", "repo_eviction", repositoryId]

/-- `eviction_tombstone_id`: in the domain and version of the target. -/
def evictionTombstoneId (targetId : String) : String × Nat :=
  let parts := do
    let (domain, rest) ← splitOnce [':', 'v'] targetId.toList
    let (version, _) ← splitOnce [':'] rest
    let version ← parseU32 version
    return (String.ofList domain, version)
  let (domain, version) := parts.getD ("agent_memory", agentMemorySchemaVersion)
  (domain ++ ":v" ++ toString version ++ ":" ++ env.evictionHash targetId, version)

/-- `is_eviction_event`. -/
def isEvictionEvent (node : NodeRecord) : Bool :=
  node.kind = .retraction &&
    (node.field "source_handle").any fun handle => node.id = evictionEventId env handle

/-- `is_eviction_tombstone`. -/
def isEvictionTombstone : GraphRecord → Bool
  | .tombstone tombstone => tombstone.id = (evictionTombstoneId env tombstone.deletedId).1
  | _ => false

end Ids

/-- `is_evidence_edge`. -/
def isEvidenceEdge : EdgeLabel → Bool
  | .hasEvidence | .observes | .mentionsSymbol | .touchedFile | .producedPatch
  | .producedEvidence | .validatedBy | .closesAcceptanceCriterion | .ownedByTask
  | .externalHandle | .dependsOn | .touchesFile | .mergedAs | .reviewsCommit | .reviewedBy
  | .requestedReviewFrom | .transitionsReview | .failedOn | .explainsChange | .referencesTask
  | .contradicts | .supersedes | .relatesTo | .frameResolvesTo | .emittedDuring
  | .materializedAs | .proposedBy | .promptedFor | .decidedOn | .revokedBy | .scopedToRepo
  | .fingerprintedAs | .capturedFrom | .aggregates => true
  | .contains | .defines | .imports | .references | .calls | .constructs | .registersRoute
  | .implements | .mentions | .changedIn | .parentOf | .driftsFrom | .driftsPrior
  | .measuredBy | .sessionOf | .authoredBy => false

/-- `record_kind`. -/
def recordKind : GraphRecord → String
  | .node node => node.kind.asStr
  | .edge _ => "edge"
  | .tombstone _ => "tombstone"

/-- `projection`. -/
def projection (record : GraphRecord) : EvictedRecord :=
  ⟨record.id, (recordVersion record).domain, recordKind record⟩

/-- `validate_request`. -/
def validateRequest (env : EvictionEnv) (request : EvictionRequest) : Except EvictError Unit :=
  if isBlank request.reason then .error .missingReason
  else if isBlank request.evictedBy then .error .missingActor
  else match request.transactionTime with
    | none => .ok ()
    | some value =>
        match env.parseFromRfc3339 value with
        | .ok _ => .ok ()
        | .error message => .error (.invalidTransactionTime value message)

/-- `str::trim`, of a string. -/
def trimmed (text : String) : String := String.ofList (trim text.toList)

/-! ## Attribution -/

section Attribution

/-- The latest node record of each ID. -/
def nodeRecords (records : List GraphRecord) : StrMap NodeRecord :=
  (nodesOf records).foldl (fun nodes node => nodes.insert node.id node) ∅

/-- The latest edge record of each ID. -/
def edgeRecords (records : List GraphRecord) : StrMap EdgeRecord :=
  (edgesOf records).foldl (fun edges edge => edges.insert edge.id edge) ∅

variable (nodes : StrMap NodeRecord) (edges : StrMap EdgeRecord)

/-- The two directions of an evidence edge between known nodes. -/
def evidenceLinks (edge : EdgeRecord) : List (String × String) :=
  if isEvidenceEdge edge.label && nodes.contains edge.source && nodes.contains edge.target then
    [(edge.source, edge.target), (edge.target, edge.source)]
  else []

/-- `evidence_adjacency`. -/
def evidenceAdjacency : StrMap (List String) :=
  ((edges.toList.map Prod.snd).flatMap (evidenceLinks nodes)).foldl (pushEntry some) ∅

/-- The owners that the index knows of the current nodes. -/
def currentOwner (index : RepositoryIndex) : StrMap String :=
  nodes.filterMap fun id _ => index.ownerOf id

/-- `walk_reachability`. The walk does not go on to nodes that have an owner. -/
def walkReachability (repositoryIds : List String) (owner : StrMap String)
    (adjacency : StrMap (List String)) : StrMap StrSet :=
  repositoryIds.foldl (fun reachedBy repo =>
    let seeds := (owner.toList.filter fun entry => entry.2 = repo).map Prod.fst
    (flood (fun node => (adjacency.getD node []).filter fun neighbor => !owner.contains neighbor)
      (fun neighbor reachedBy => insertLink reachedBy (neighbor, repo))
      (seeds.length + adjacency.keys.length) seeds seeds reachedBy).2) ∅

/-- The part of a plan that a node falls into. -/
inductive NodeShare where
  | evicted | shared | unattributable | untouched
  deriving DecidableEq

variable (env : EvictionEnv) (target : String) (owner : StrMap String)
  (reachedBy : StrMap StrSet)

/-- The partition of the nodes. -/
def nodeShare (node : NodeRecord) : NodeShare :=
  if isEvictionEvent env node then .untouched
  else match owner[node.id]? with
    | some repo => if repo = target then .evicted else .untouched
    | none =>
        match reachedBy[node.id]? with
        | none => .unattributable
        | some repos =>
            if repos.size = 1 && repos.contains target then .evicted
            else if repos.contains target then .shared
            else .untouched

/-- The nodes of one part, by ID. -/
def nodesWith (share : NodeShare) : List NodeRecord :=
  (nodes.toList.map Prod.snd).filter fun node =>
    nodeShare env target owner reachedBy node = share

/-- The edges out of evicted nodes, by ID. -/
def evictedEdges (evictedNodes : List NodeRecord) : List EdgeRecord :=
  (edges.toList.map Prod.snd).filter fun edge =>
    (evictedNodes.map NodeRecord.id).contains edge.source

/-- The citations that dangle: evidence edges from surviving to evicted nodes. -/
def danglingCitations (evictedNodes : List NodeRecord) : List CrossRepoCitation :=
  (edges.toList.map Prod.snd).filterMap fun edge =>
    let isEvicted := fun id => (evictedNodes.map NodeRecord.id).contains id
    if isEvidenceEdge edge.label && !isEvicted edge.source && isEvicted edge.target &&
        nodes.contains edge.source then
      some {
        citingId := edge.source
        citingRepository := owner[edge.source]?.or
          (reachedBy[edge.source]?.bind fun repos => repos.toList.find? (· ≠ target))
        evictedTarget := edge.target }
    else none

end Attribution

/-! ## Plans -/

/-- Sort by record ID. -/
def sortedById (records : List EvictedRecord) : List EvictedRecord :=
  records.insertionSort fun record other => byteOrder record.recordId other.recordId ≠ .gt

/-- The order of citations: by citing record, then by target. -/
def citationBefore (citation other : CrossRepoCitation) : Prop :=
  (byteOrder citation.citingId other.citingId).then
    (byteOrder citation.evictedTarget other.evictedTarget) ≠ .gt

instance : DecidableRel citationBefore := fun _ _ => inferInstanceAs (Decidable (_ ≠ _))

/-- `empty_by_domain`. -/
def emptyByDomain : StrMap Nat :=
  planDomains.foldl (fun counts domain => counts.insert domain 0) ∅

/-- The counts by domain. -/
def countByDomain (evicted : List EvictedRecord) : StrMap Nat :=
  evicted.foldl (fun counts record =>
    counts.insert record.domain (counts.getD record.domain 0 + 1)) emptyByDomain

section Plan

variable (env : EvictionEnv)

/-- `event_meta`: the actor, the reason and the time of an event node. -/
def eventMeta (event : NodeRecord) : String × String × String :=
  ((event.field "agent_id").getD "", (event.field "text").getD "",
    (event.field "transaction_time").getD "")

/-- `already_evicted_plan`. -/
def alreadyEvictedPlan (repositoryId : String) (display : Option String)
    (eventNode : NodeRecord) : EvictionPlan :=
  let (evictedBy, reason, transactionTime) := eventMeta eventNode
  { repositoryId := repositoryId
    repositoryDisplay := display
    alreadyEvicted := true
    repair := false
    evicted := []
    byDomain := emptyByDomain
    unattributable := []
    sharedCrossRepo := []
    temporalSnapshotsRetained := []
    crossRepoCitations := []
    event := {
      eventId := evictionEventId env repositoryId
      repositoryId := repositoryId
      evictedBy := evictedBy
      reason := reason
      transactionTime := transactionTime
      tombstoneIds := [] } }

/-- The IDs of the tombstones of a plan. -/
def tombstoneIds (evicted : List EvictedRecord) : List String :=
  (evicted.map fun record => (evictionTombstoneId env record.recordId).1).insertionSort
    fun id other => byteOrder id other ≠ .gt

/-- The resolution view without its eviction tombstones. -/
def strippedView (resolutionRecords : List GraphRecord) : List GraphRecord :=
  if resolutionRecords.any (isEvictionTombstone env) then
    resolutionRecords.filter fun record => !isEvictionTombstone env record
  else resolutionRecords

/-- The node of a repository's eviction event. -/
def isEventOf (repositoryId : String) (node : NodeRecord) : Bool :=
  node.kind = .retraction && node.field "source_handle" = some repositoryId &&
    node.id = evictionEventId env repositoryId

/-- `plan_eviction` once the selector is resolved; `now` is the time of the plan. -/
def planResolved (now : String) (records : List GraphRecord) (index : RepositoryIndex)
    (repositoryId : String) (request : EvictionRequest) : EvictionPlan :=
  let display := index.displayOf repositoryId
  let existingEvent := (nodesOf records).find? (isEventOf env repositoryId)
  let nodes := nodeRecords records
  let edges := edgeRecords records
  let owner := currentOwner nodes index
  let reachedBy := walkReachability index.repositoryIds owner (evidenceAdjacency nodes edges)
  let inShare := nodesWith nodes env repositoryId owner reachedBy
  let evictedNodes := inShare .evicted
  let evicted := sortedById (evictedNodes.map (fun node => projection (.node node)) ++
    (evictedEdges edges evictedNodes).map fun edge => projection (.edge edge))
  let retained := sortedById ((evictedNodes.filter fun node => node.temporal.isSome).map
    fun node => projection (.node node))
  let hasSuppressibleLive := evicted.any fun record =>
    !(retained.map EvictedRecord.recordId).contains record.recordId
  let plan (repair : Bool) (evictedBy reason transactionTime : String) : EvictionPlan :=
    { repositoryId := repositoryId
      repositoryDisplay := display
      alreadyEvicted := false
      repair := repair
      evicted := evicted
      byDomain := countByDomain evicted
      unattributable := sortedById ((inShare .unattributable).map
        fun node => projection (.node node))
      sharedCrossRepo := sortedById ((inShare .shared).map fun node => projection (.node node))
      temporalSnapshotsRetained := retained
      crossRepoCitations := (danglingCitations nodes edges repositoryId owner reachedBy
        evictedNodes).insertionSort citationBefore
      event := {
        eventId := evictionEventId env repositoryId
        repositoryId := repositoryId
        evictedBy := evictedBy
        reason := reason
        transactionTime := transactionTime
        tombstoneIds := tombstoneIds env evicted } }
  match existingEvent with
  | some eventNode =>
      if hasSuppressibleLive then
        let (evictedBy, reason, transactionTime) := eventMeta eventNode
        plan true evictedBy reason transactionTime
      else alreadyEvictedPlan env repositoryId display eventNode
  | none =>
      plan false (env.redactValue (trimmed request.evictedBy))
        (env.redactValue (trimmed request.reason)) (request.transactionTime.getD now)

/-- `plan_eviction`. -/
def planEviction (now : String) (records resolutionRecords : List GraphRecord)
    (request : EvictionRequest) : Except EvictError EvictionPlan :=
  match validateRequest env request with
  | .error fault => .error fault
  | .ok () =>
      let index := RepositoryIndex.build (strippedView env resolutionRecords)
      match index.resolveSelector (trimmed request.selector) with
      | .error fault => .error (.ofSelectorError fault)
      | .ok repositoryId => .ok (planResolved env now records index repositoryId request)

/-- `build_event_node`. -/
def buildEventNode (event : RepoEvictionEvent) : NodeRecord where
  id := event.eventId
  kind := .retraction
  schemaVersion := agentMemorySchemaVersion
  domain := some "agent_memory"
  summary := "Repository eviction of " ++ event.repositoryId
  rest := [("text", event.reason), ("agent_id", event.evictedBy),
      ("transaction_time", event.transactionTime), ("source_handle", event.repositoryId),
      ("valid_time", event.transactionTime),
      ("valid_time_source", "inferred_from_transaction_time")] ++
    if env.isRedacted event.reason || env.isRedacted event.evictedBy then
      [("redaction_policy_version", redactionPolicyV1)]
    else []

/-- The tombstone of an evicted record. -/
def evictionTombstone (event : RepoEvictionEvent) (recordId : String) : TombstoneRecord where
  id := (evictionTombstoneId env recordId).1
  schemaVersion := (evictionTombstoneId env recordId).2
  deletedId := recordId
  summary := "Repository eviction of " ++ recordId ++ "; see eviction event " ++ event.eventId

/-- `eviction_records`. -/
def evictionRecords (plan : EvictionPlan) : List GraphRecord :=
  if plan.alreadyEvicted then []
  else
    (if plan.repair then [] else [.node (buildEventNode env plan.event)]) ++
      plan.evicted.map fun record => .tombstone (evictionTombstone env plan.event record.recordId)

end Plan

/-! ## The store -/

/-- The order in which a store enumerates its edges. -/
structure EdgeOrder where
  emit : List String → List String
  emit_perm : ∀ ids, (emit ids).Perm ids

section Reads

variable (order : EdgeOrder) (log : List GraphRecord)

/-- The last write of the ID is a tombstone. -/
def tombstoned (id : String) : Bool := (Liveness.new log).tombstoneActive id

/-- The edges whose IDs no tombstone ends. -/
def liveEdges : List GraphRecord :=
  (order.emit (edgeRecords log).keys).filterMap fun id =>
    if tombstoned log id then none else (edgeRecords log)[id]?.map .edge

/-- A tombstone in force. -/
def isActiveTombstone : GraphRecord → Bool
  | .tombstone tombstone => tombstoned log tombstone.deletedId
  | _ => false

/-- `read_all_records`, without temporal records: the latest live nodes, the tombstones in
force and the latest live edges. -/
def readAllRecords : List GraphRecord :=
  ((nodeRecords log).toList.filter fun entry => !tombstoned log entry.1).map
      (fun entry => .node entry.2) ++
    log.filter (isActiveTombstone log) ++ liveEdges order log

/-- `read_all_records_including_superseded`: the live edges, then every node version and the
tombstones in force, as they were written. -/
def readAllRecordsIncludingSuperseded : List GraphRecord :=
  liveEdges order log ++ log.filter fun record =>
    record.asNode.isSome || isActiveTombstone log record

end Reads

end Egregore
