import Egregore.Base.BoundedSearch
import Egregore.Query.TransitiveCallees

/-!
# Transitive inbound callers

`transitive_callers`: the depth-bounded walk against the direction of calls and references. An edge
whose source no live record has is reported, inside the bound, unless the source was deleted.
-/

namespace Egregore

open Base

/-- `TRANSITIVE_CALLER_LABELS`. -/
def transitiveCallerLabels : List EdgeLabel := [.calls, .references]

/-- `TransitivePathStep`: one hop toward the queried symbol. -/
structure TransitivePathStep where
  sourceRecordId : String
  edgeRecordId : String
  edgeLabel : String
  resolution : Option CallResolution
  targetRecordId : String
  deriving DecidableEq, Repr

/-- `TransitiveCallerRow`. -/
structure TransitiveCallerRow where
  record : GraphRecord
  hop : Nat
  path : List TransitivePathStep
  pathResolution : Option CallResolution
  deriving DecidableEq, Repr

/-- `TransitiveDroppedDepth`. -/
structure TransitiveDroppedDepth where
  depth : Nat
  count : Nat
  deriving DecidableEq, Repr

/-- `TransitiveTruncation`. -/
structure TransitiveTruncation where
  maxDepth : Nat
  droppedFrontier : List TransitiveDroppedDepth
  droppedTotal : Nat
  deriving DecidableEq, Repr

/-- `MemoryAuditDiagnostic`. -/
structure MemoryAuditDiagnostic where
  code : String
  sourceRecordId : String
  targetHandle : String
  relation : String
  targetDomain : String
  deriving DecidableEq, Repr

/-- `TransitiveCallersContext`. -/
structure TransitiveCallersContext where
  anchor : GraphRecord
  rows : List TransitiveCallerRow
  truncation : Option TransitiveTruncation
  diagnostics : List MemoryAuditDiagnostic
  maxDepth : Nat
  deriving DecidableEq, Repr

/-- An inbound edge under its target: the latest version of a live edge of the label set. -/
def callerEdge (liveness : Liveness) : GraphRecord × Nat → Option (String × TransitiveEdgeRef)
  | (.edge edge, index) =>
      if liveness.isLatestEdgeVersion edge.id index = true ∧ liveness.deleted edge.id = false ∧
          transitiveCallerLabels.contains edge.label = true then
        some (edge.target, edge.source, edge.id, edge.label.asStr, edge.resolution)
      else none
  | _ => none

/-- `inbound`, before its lists are sorted. -/
def inboundCallers (records : List GraphRecord) : StrMap (List TransitiveEdgeRef) :=
  records.zipIdx.foldl (pushEntry (callerEdge (Liveness.new records))) ∅

/-- The inbound edges of a node in visit order: source, then edge. -/
def callersInto (records : List GraphRecord) (target : String) : List TransitiveEdgeRef :=
  dedupBy calleeOrder
    (((inboundCallers records).getD target []).insertionSort fun edge later =>
      calleeOrder edge later ≠ .gt)

section Walk

variable (records : List GraphRecord) (byId : StrMap GraphRecord)

/-- What `discover_level` makes of an inbound edge of a node. -/
def discoverCaller (node : String) : TransitiveEdgeRef → Option (String × TransitiveEdgeRef)
  | (source, edgeId, label, resolution) =>
      if source ∈ byId then some (source, edgeId, node, label, resolution) else none

/-- The discoveries that a node makes. -/
def callerDiscoveries (node : String) : List (String × TransitiveEdgeRef) :=
  (callersInto records node).filterMap (discoverCaller byId node)

/-- The diagnostic of an inbound edge whose source has neither a record nor a tombstone. -/
def unresolvedEdgeSource (visited : StrSet) : TransitiveEdgeRef → Option MemoryAuditDiagnostic
  | (source, edgeId, label, _) =>
      if visited.contains source || source ∈ byId || (Liveness.new records).deleted source then none
      else some ⟨"unresolved_edge_source", edgeId, source, label, "codegraph"⟩

/-- The diagnostics of a level. -/
def levelDiagnostics (search : LevelSearch String TransitiveEdgeRef byteOrder) :
    List MemoryAuditDiagnostic :=
  search.frontier.flatMap fun node =>
    (callersInto records node).filterMap (unresolvedEdgeSource records byId search.visited)

/-- The walk between two depths. -/
structure CallerWalk extends BoundedSearch String TransitiveEdgeRef byteOrder where
  diagnostics : List MemoryAuditDiagnostic := []

/-- One depth. -/
def CallerWalk.advance (walk : CallerWalk) : CallerWalk where
  toBoundedSearch :=
    walk.toBoundedSearch.advance calleePointerOrder (callerDiscoveries records byId)
  diagnostics := walk.diagnostics ++ levelDiagnostics records byId walk.search

/-- The loop up to the bound; the number is that of the depths left. -/
def CallerWalk.run : Nat → CallerWalk → CallerWalk
  | 0, walk => walk
  | left + 1, walk =>
      if walk.search.frontier.isEmpty then walk
      else CallerWalk.run left (walk.advance records byId)

/-- The walk when the loop ends. -/
def callerWalk (anchorId : String) (maxDepth : Nat) : CallerWalk :=
  CallerWalk.run records byId maxDepth { search := LevelSearch.start anchorId }

/-- The truncation diagnostic. -/
def callerTruncation (walk : CallerWalk) (maxDepth : Nat) : Option TransitiveTruncation :=
  if walk.search.frontier.isEmpty then none
  else
    let dropped := (BoundedSearch.beyond calleePointerOrder (callerDiscoveries records byId)
      (records.length + 1) walk.depth walk.search).map fun (depth, count) =>
        (⟨depth, count⟩ : TransitiveDroppedDepth)
    let total := (dropped.map TransitiveDroppedDepth.count).sum
    if total > 0 then some ⟨maxDepth, dropped, total⟩ else none

/-- The step a discovery pointer stands for. -/
def callerPathStep : String × TransitiveEdgeRef → TransitivePathStep
  | (node, edgeId, parentId, label, resolution) =>
      { sourceRecordId := node
        edgeRecordId := edgeId
        edgeLabel := label
        resolution := resolution
        targetRecordId := parentId }

/-- The row of a discovered node. A failure is the panic of an `expect`. -/
def callerRow (anchorId : String) (search : LevelSearch String TransitiveEdgeRef byteOrder) :
    String × Nat → Except String TransitiveCallerRow
  | (node, hop) =>
      match byId[node]? with
      | none => .error "discovered nodes are live records"
      | some record =>
          match chainTo (fun pointer => pointer.2.1) search.parent anchorId hop node with
          | none => .error "every discovered node has a parent pointer"
          | some links =>
              let path := links.reverse.map callerPathStep
              .ok ⟨record, hop, path, bestOf (compareOn CallResolution.weakness)
                (path.filterMap TransitivePathStep.resolution)⟩

/-- The row order: hop, then record ID. -/
def callerRowBefore (row later : TransitiveCallerRow) : Prop :=
  row.hop < later.hop ∨ row.hop = later.hop ∧ byteOrder row.record.id later.record.id ≠ .gt

instance : DecidableRel callerRowBefore := fun _ _ => inferInstanceAs (Decidable (_ ∨ _))

/-- The order of diagnostics: code, source, handle, relation. -/
def auditDiagnosticOrder : MemoryAuditDiagnostic → MemoryAuditDiagnostic → Ordering :=
  compareLex (compareOn fun diagnostic => asBytes diagnostic.code)
    (compareLex (compareOn fun diagnostic => asBytes diagnostic.sourceRecordId)
      (compareLex (compareOn fun diagnostic => asBytes diagnostic.targetHandle)
        (compareOn fun diagnostic => asBytes diagnostic.relation)))

end Walk

/-- `transitive_callers`. -/
def transitiveCallers (records : List GraphRecord) (anchorId : String) (maxDepth : Nat) :
    Except String (Option TransitiveCallersContext) :=
  let byId := liveById (Liveness.new records) records
  match byId[anchorId]? with
  | none => .ok none
  | some anchor => do
      let walk := callerWalk records byId anchorId maxDepth
      let rows ← walk.hopOf.toList.mapM (callerRow byId anchorId walk.search)
      return some {
        anchor := anchor
        rows := rows.insertionSort callerRowBefore
        truncation := callerTruncation records byId walk maxDepth
        diagnostics := dedupBy auditDiagnosticOrder
          (walk.diagnostics.insertionSort fun diagnostic later =>
            auditDiagnosticOrder diagnostic later ≠ .gt)
        maxDepth := maxDepth }

end Egregore
