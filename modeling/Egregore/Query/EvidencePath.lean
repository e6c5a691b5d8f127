import Egregore.Base.Dedup
import Egregore.Base.KeyedSearch
import Egregore.Query.Current
import Egregore.SchemaVersion

/-!
# Evidence witness path

`evidence_path`: the least shortest chain of evidence edges between two live nodes, each edge taken
in either direction.
-/

namespace Egregore

open Base

/-- `CorrelationBasis`. -/
inductive CorrelationBasis where
  | contentHashJoin
  | temporalCorrelation
  deriving DecidableEq, Repr

namespace CorrelationBasis

/-- The wire string of a basis. -/
def asStr : CorrelationBasis → String
  | .contentHashJoin => "content_hash_join"
  | .temporalCorrelation => "temporal_correlation"

/-- The confidence of an edge of this basis. -/
def confidence : CorrelationBasis → String
  | .contentHashJoin => "1.0"
  | .temporalCorrelation => "0.5"

/-- The basis of a wire string. -/
def ofStr (text : String) : Option CorrelationBasis :=
  [contentHashJoin, temporalCorrelation].find? fun basis => basis.asStr = text

end CorrelationBasis

/-- The `basis` of an edge. -/
def EdgeRecord.basis (edge : EdgeRecord) : Option CorrelationBasis :=
  (edge.rest.lookup "basis").bind CorrelationBasis.ofStr

/-- `is_evidence_path_edge`. -/
def isEvidencePathEdge : EdgeLabel → Bool
  | .hasEvidence | .observes | .mentionsSymbol | .touchedFile | .producedPatch
  | .producedEvidence | .validatedBy | .closesAcceptanceCriterion | .ownedByTask
  | .externalHandle | .dependsOn | .touchesFile | .mergedAs | .reviewsCommit | .reviewedBy
  | .requestedReviewFrom | .transitionsReview | .failedOn | .explainsChange | .referencesTask
  | .contradicts | .supersedes | .relatesTo | .frameResolvesTo | .emittedDuring
  | .materializedAs | .proposedBy | .promptedFor | .decidedOn | .revokedBy | .scopedToRepo
  | .fingerprintedAs | .capturedFrom | .aggregates => true
  | .contains | .defines | .imports | .references | .calls | .implements | .mentions | .changedIn
  | .parentOf | .driftsFrom | .driftsPrior | .measuredBy | .sessionOf | .authoredBy
  | .constructs | .registersRoute => false

/-- `edge_classes`: the traversed and the excluded labels. -/
def edgeClasses : List String × List String :=
  let sorted (traversed : Bool) :=
    ((EdgeLabel.all.filter fun label => isEvidencePathEdge label = traversed).map
      EdgeLabel.asStr).insertionSort fun label other => byteOrder label other ≠ .gt
  (sorted true, sorted false)

/-- `NodeRow`. -/
structure EvidenceNodeRow where
  recordId : String
  schemaVersion : Nat
  domain : String
  trustClass : String
  kind : String
  repoRelativePath : Option String
  span : Option String
  deriving DecidableEq, Repr

/-- `EdgeStep`. -/
structure EvidenceEdgeStep where
  label : String
  edgeRecordId : String
  traversalDirection : String
  basis : Option String
  confidence : Option String
  deriving DecidableEq, Repr

/-- `Hop`. -/
structure EvidenceHop where
  index : Nat
  from_ : EvidenceNodeRow
  to_ : EvidenceNodeRow
  edge : EvidenceEdgeStep
  deriving DecidableEq, Repr

/-- `EvidencePath`. -/
structure EvidencePath where
  source : EvidenceNodeRow
  target : EvidenceNodeRow
  hops : List EvidenceHop
  traversedEdgeClasses : List String
  excludedEdgeClasses : List String
  deriving DecidableEq, Repr

/-- `EndpointSide`. -/
inductive EndpointSide where
  | source
  | target
  deriving DecidableEq, Repr

/-- `EvidencePathError`. -/
inductive EvidencePathError where
  | identicalEndpoints (handle : String)
  | noPath (source target : EvidenceNodeRow) (traversedEdgeClasses excludedEdgeClasses : List String)
  | endpointNotFound (side : EndpointSide) (handle : String)
  | endpointTombstoned (side : EndpointSide) (handle : String)
  deriving DecidableEq, Repr

/-- `trust_class_for_domain`. -/
def trustClassForDomain : String → String
  | "codegraph" => "source_fact"
  | "agent_memory" => "agent_observation"
  | "verification" => "verification"
  | "artifact" => "artifact"
  | "project" => "project_state"
  | "log" => "runtime_observation"
  | "semantic" => "semantic"
  | "user_context" => "user_context"
  | _ => "unknown"

/-- `project_node_row`, with `record_domain`. -/
def projectNodeRow (node : NodeRecord) : EvidenceNodeRow :=
  let domain := (node.domain.or (domainFromRecordId node.id)).getD "unknown"
  { recordId := node.id
    schemaVersion := node.schemaVersion
    domain := domain
    trustClass := trustClassForDomain domain
    kind := node.kind.asStr
    repoRelativePath := node.repoRelativePath
    span := node.rest.lookup "span" }

/-- `Adjacency`: a neighbour and the stored edge that leads to it. -/
structure EvidenceAdjacency where
  neighbor : String
  edgeId : String
  label : EdgeLabel
  nativeFrom : String
  nativeTo : String
  basis : Option CorrelationBasis
  deriving DecidableEq, Repr

/-- `Discovery`: how a node was reached. -/
structure EvidenceDiscovery where
  parent : String
  adj : EvidenceAdjacency
  deriving DecidableEq, Repr

/-- `by_id`: the live nodes. -/
def liveNodesById (liveness : Liveness) (records : List GraphRecord) : StrMap NodeRecord :=
  records.foldl (insertEntry fun record =>
    match record with
    | .node node => if liveness.deleted node.id then none else some (node.id, node)
    | _ => none) ∅

/-- The two entries of a usable edge: under its source and under its target. -/
def evidenceEntries (liveness : Liveness) (byId : StrMap NodeRecord) :
    GraphRecord × Nat → List (String × EvidenceAdjacency)
  | (.edge edge, index) =>
      if !liveness.isLatestEdgeVersion edge.id index then []
      else if liveness.deleted edge.id || !isEvidencePathEdge edge.label then []
      else if edge.source = edge.target ∨ liveness.deleted edge.source ∨
          liveness.deleted edge.target ∨ byId.contains edge.source = false ∨
          byId.contains edge.target = false then []
      else
        let entry : EvidenceAdjacency :=
          { neighbor := edge.target
            edgeId := edge.id
            label := edge.label
            nativeFrom := edge.source
            nativeTo := edge.target
            basis := edge.basis }
        [(edge.source, entry), (edge.target, { entry with neighbor := edge.source })]
  | _ => []

/-- The key of an entry: the step it stands for. -/
def EvidenceAdjacency.step (adj : EvidenceAdjacency) : String × String := (adj.neighbor, adj.edgeId)

/-- The order of the entries of a node. -/
def adjacencyOrder (adj later : EvidenceAdjacency) : Ordering := pairOrder adj.step later.step

/-- `adjacency`, before its lists are sorted. -/
def witnessAdjacency (records : List GraphRecord) : StrMap (List EvidenceAdjacency) :=
  let liveness := Liveness.new records
  (records.zipIdx.flatMap (evidenceEntries liveness (liveNodesById liveness records))).foldl
    (pushEntry some) ∅

/-- The entries of a node in visit order. -/
def sortedAdjacency (records : List GraphRecord) (node : String) : List EvidenceAdjacency :=
  dedupBy adjacencyOrder (((witnessAdjacency records).getD node []).insertionSort
    fun adj later => adjacencyOrder adj later ≠ .gt)

/-- The discoveries that a node makes. -/
def witnessLinks (records : List GraphRecord) (node : String) :
    List (String × EvidenceDiscovery) :=
  (sortedAdjacency records node).map fun adj => (adj.neighbor, ⟨node, adj⟩)

/-- The step of a discovery in a path key. -/
def evidenceStep (link : String × EvidenceDiscovery) : String × String := link.2.adj.step

/-- The search of `evidence_path` when it ends. -/
def evidenceSearch (records : List GraphRecord) (sourceId targetId : String) :
    KeyedSearch String EvidenceDiscovery (String × String) byteOrder :=
  KeyedSearch.toward pairOrder evidenceStep (witnessLinks records) targetId
    (2 * records.length + 1) (KeyedSearch.start sourceId)

/-- A hop of the reconstructed chain. It fails where an `expect` does. -/
def evidenceHop (byId : StrMap NodeRecord) (index : Nat) (discovery : EvidenceDiscovery) :
    Option EvidenceHop :=
  let adj := discovery.adj
  match byId[adj.nativeFrom]?, byId[adj.nativeTo]? with
  | some from_, some to_ =>
      let basis := if adj.label = .emittedDuring then adj.basis else none
      some {
        index := index
        from_ := projectNodeRow from_
        to_ := projectNodeRow to_
        edge :=
          { label := adj.label.asStr
            edgeRecordId := adj.edgeId
            traversalDirection :=
              if discovery.parent = adj.nativeFrom then "forward" else "reverse"
            basis := basis.map CorrelationBasis.asStr
            confidence := basis.map CorrelationBasis.confidence } }
  | _, _ => none

/-- `resolve_endpoint`. -/
def resolveEndpoint (liveness : Liveness) (byId : StrMap NodeRecord) (id : String)
    (side : EndpointSide) : Except EvidencePathError NodeRecord :=
  match byId[id]? with
  | some node => .ok node
  | none =>
      if liveness.deleted id then .error (.endpointTombstoned side id)
      else .error (.endpointNotFound side id)

/-- `evidence_path`. Its `expect`s fail with `none`. -/
def evidencePath (records : List GraphRecord) (sourceId targetId : String) :
    Option (Except EvidencePathError EvidencePath) :=
  let (traversed, excluded) := edgeClasses
  let liveness := Liveness.new records
  let byId := liveNodesById liveness records
  if sourceId = targetId then some (.error (.identicalEndpoints sourceId))
  else
    match resolveEndpoint liveness byId sourceId .source,
      resolveEndpoint liveness byId targetId .target with
    | .error failure, _ => some (.error failure)
    | .ok _, .error failure => some (.error failure)
    | .ok source, .ok target =>
        let search := evidenceSearch records sourceId targetId
        if !search.visited.contains targetId then
          some (.error (.noPath (projectNodeRow source) (projectNodeRow target) traversed excluded))
        else
          match chainTo EvidenceDiscovery.parent search.parent sourceId (2 * records.length)
            targetId with
          | none => none
          | some links =>
              (links.zipIdx.mapM fun entry => evidenceHop byId entry.2 entry.1.2).map fun hops =>
                .ok {
                  source := projectNodeRow source
                  target := projectNodeRow target
                  hops := hops
                  traversedEdgeClasses := traversed
                  excludedEdgeClasses := excluded }

end Egregore
