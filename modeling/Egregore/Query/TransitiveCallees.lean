import Egregore.Base.Dedup
import Egregore.Base.LevelSearch
import Egregore.Query.Current

/-!
# Transitive outbound callees

`transitive_callees`: the depth-bounded walk over the dependency labels, with the
edges whose target is not a resolved node reported apart. The walk takes an
`unresolved_dispatch` edge that the second pass reports as unresolved, so at depth
one the two lanes agree exactly when each such target has an ordinary edge too.
-/

namespace Egregore

open Base

/-- `TRANSITIVE_CALLEE_LABELS`. -/
def transitiveCalleeLabels : List EdgeLabel := [.calls, .implements, .imports, .references]

/-- An outbound edge (target, edge, label, resolution) or a discovery pointer (edge, parent, label,
resolution). -/
abbrev TransitiveEdgeRef := String × String × String × Option CallResolution

/-- One hop of a path. -/
structure TransitiveCalleePathStep where
  sourceRecordId : String
  edgeRecordId : String
  edgeLabel : String
  resolution : Option CallResolution
  targetRecordId : String
  deriving DecidableEq, Repr

/-- One reachable node. -/
structure TransitiveCalleeRow where
  record : GraphRecord
  hop : Nat
  path : List TransitiveCalleePathStep
  pathResolution : Option CallResolution
  deriving DecidableEq, Repr

/-- Why a target is unresolved. -/
inductive UnresolvedCalleeReason where
  | unresolvedCall | unresolvedDispatch | missingTarget
  deriving DecidableEq, Repr

def UnresolvedCalleeReason.asStr : UnresolvedCalleeReason → String
  | .unresolvedCall => "unresolved_call"
  | .unresolvedDispatch => "unresolved_dispatch"
  | .missingTarget => "missing_target"

/-- One unresolved outbound edge. -/
structure UnresolvedCalleeRow where
  diagnostic : Option GraphRecord
  targetId : String
  sourceId : String
  sourceHop : Nat
  edgeId : String
  relation : String
  resolution : Option CallResolution
  reason : UnresolvedCalleeReason
  deriving DecidableEq, Repr

/-- What lies beyond the bound at one depth. -/
structure TransitiveCalleeDroppedDepth where
  depth : Nat
  count : Nat
  deriving DecidableEq, Repr

structure TransitiveCalleeTruncation where
  maxDepth : Nat
  droppedFrontier : List TransitiveCalleeDroppedDepth
  droppedTotal : Nat
  deriving DecidableEq, Repr

/-- The result of the query. -/
structure TransitiveCalleesContext where
  anchor : GraphRecord
  rows : List TransitiveCalleeRow
  unresolved : List UnresolvedCalleeRow
  truncation : Option TransitiveCalleeTruncation
  maxDepth : Nat
  deriving DecidableEq, Repr

/-- The visit order of outbound edges: target, then edge. -/
def calleeOrder : TransitiveEdgeRef → TransitiveEdgeRef → Ordering :=
  compareLex (compareOn fun edge => asBytes edge.1) (compareOn fun edge => asBytes edge.2.1)

/-- The order of discovery pointers: parent, then edge. -/
def calleePointerOrder : TransitiveEdgeRef → TransitiveEdgeRef → Ordering :=
  compareLex (compareOn fun pointer => asBytes pointer.2.1)
    (compareOn fun pointer => asBytes pointer.1)

/-- An outbound edge under its source: the latest version of a live edge of the label set. -/
def calleeEdge (liveness : Liveness) : GraphRecord × Nat → Option (String × TransitiveEdgeRef)
  | (.edge edge, index) =>
      if liveness.isLatestEdgeVersion edge.id index = true ∧ liveness.deleted edge.id = false ∧
          transitiveCalleeLabels.contains edge.label = true then
        some (edge.source, edge.target, edge.id, edge.label.asStr, edge.resolution)
      else none
  | _ => none

/-- `outbound`, before its lists are sorted. -/
def outboundCallees (records : List GraphRecord) : StrMap (List TransitiveEdgeRef) :=
  records.zipIdx.foldl (pushEntry (calleeEdge (Liveness.new records))) ∅

/-- The outbound edges of a node in visit order. -/
def calleesFrom (records : List GraphRecord) (source : String) : List TransitiveEdgeRef :=
  dedupBy calleeOrder
    (((outboundCallees records).getD source []).insertionSort fun edge later =>
      calleeOrder edge later ≠ .gt)

section Walk

variable (records : List GraphRecord) (byId : StrMap GraphRecord) (anchorId : String)

/-- What `discover_level` makes of an outbound edge of a node. -/
def discoverCallee (node : String) : TransitiveEdgeRef → Option (String × TransitiveEdgeRef)
  | (target, edgeId, label, resolution) =>
      if target = anchorId then none
      else
        match byId[target]? with
        | none => none
        | some record =>
            if record.nodeKind? = some .diagnostic ∨ resolution = some .unresolved then none
            else some (target, edgeId, node, label, resolution)

/-- The discoveries that a node makes. -/
def calleeDiscoveries (node : String) : List (String × TransitiveEdgeRef) :=
  (calleesFrom records node).filterMap (discoverCallee byId anchorId node)

/-- The walk between two depths. -/
structure CalleeWalk where
  depth : Nat := 0
  search : LevelSearch String TransitiveEdgeRef byteOrder
  hopOf : StrMap Nat := ∅

/-- One depth. -/
def CalleeWalk.advance (walk : CalleeWalk) : CalleeWalk :=
  let search := walk.search.advance calleePointerOrder (calleeDiscoveries records byId anchorId)
  { depth := walk.depth + 1
    search := search
    hopOf := search.frontier.foldl (fun hops node => hops.insert node (walk.depth + 1)) walk.hopOf }

/-- The loop up to the bound; the number is that of the depths left. -/
def CalleeWalk.run : Nat → CalleeWalk → CalleeWalk
  | 0, walk => walk
  | left + 1, walk =>
      if walk.search.frontier.isEmpty then walk
      else CalleeWalk.run left (walk.advance records byId anchorId)

/-- The walk when the loop ends. -/
def calleeWalk (maxDepth : Nat) : CalleeWalk :=
  CalleeWalk.run records byId anchorId maxDepth { search := LevelSearch.start anchorId }

/-- What the second pass makes of an outbound edge of a source. -/
def unresolvedCallee (source : String × Nat) : TransitiveEdgeRef → Option UnresolvedCalleeRow
  | (target, edgeId, label, resolution) =>
      let dispatch := resolution = some .unresolvedDispatch
      if target = anchorId then none
      else
        match byId[target]? with
        | some record =>
            if record.nodeKind? = some .diagnostic ∨ resolution = some .unresolved ∨ dispatch then
              some {
                diagnostic := some record
                targetId := target
                sourceId := source.1
                sourceHop := source.2
                edgeId := edgeId
                relation := label
                resolution := resolution
                reason := if dispatch then .unresolvedDispatch else .unresolvedCall }
            else none
        | none =>
            some {
              diagnostic := none
              targetId := target
              sourceId := source.1
              sourceHop := source.2
              edgeId := edgeId
              relation := label
              resolution := resolution
              reason :=
                if dispatch then .unresolvedDispatch
                else if resolution = some .unresolved then .unresolvedCall
                else .missingTarget }

def UnresolvedCalleeRow.key (row : UnresolvedCalleeRow) : RowKey :=
  (row.relation, row.targetId, row.edgeId)

/-- The unresolved rows of the sources within the bound, the first of each key. -/
def unresolvedCallees (hopOf : StrMap Nat) (maxDepth : Nat) :
    Std.ExtTreeMap RowKey UnresolvedCalleeRow tripleOrder :=
  let sources := ((anchorId, 0) :: hopOf.toList).filter fun source => source.2 < maxDepth
  let rows := sources.flatMap fun source =>
    (calleesFrom records source.1).filterMap (unresolvedCallee byId anchorId source)
  rows.foldl (fun unresolved row => unresolved.insertIfNew row.key row) ∅

/-- The loop that counts the nodes beyond the bound. -/
def droppedDepths : Nat → Nat → LevelSearch String TransitiveEdgeRef byteOrder →
    List TransitiveCalleeDroppedDepth
  | 0, _, _ => []
  | fuel + 1, depth, search =>
      let next := search.advance calleePointerOrder (calleeDiscoveries records byId anchorId)
      if next.frontier.isEmpty then []
      else ⟨depth + 1, next.frontier.length⟩ :: droppedDepths fuel (depth + 1) next

/-- The truncation diagnostic. -/
def calleeTruncation (walk : CalleeWalk) (maxDepth : Nat) : Option TransitiveCalleeTruncation :=
  if walk.search.frontier.isEmpty then none
  else
    let dropped := droppedDepths records byId anchorId (records.length + 1) walk.depth walk.search
    let total := (dropped.map TransitiveCalleeDroppedDepth.count).sum
    if total > 0 then some ⟨maxDepth, dropped, total⟩ else none

/-- The order of `CallResolution`, weaker being greater. -/
def CallResolution.weakness : CallResolution → Nat
  | .resolved => 0
  | .ambiguous => 1
  | .unresolved => 2
  | .unresolvedDispatch => 3

/-- The weakest status of a path. -/
def weakestResolution (path : List TransitiveCalleePathStep) : Option CallResolution :=
  bestOf (compareOn CallResolution.weakness) (path.filterMap TransitiveCalleePathStep.resolution)

/-- The step a discovery pointer stands for. -/
def calleePathStep : String × TransitiveEdgeRef → TransitiveCalleePathStep
  | (target, edgeId, parentId, label, resolution) =>
      { sourceRecordId := parentId
        edgeRecordId := edgeId
        edgeLabel := label
        resolution := resolution
        targetRecordId := target }

/-- The row of a discovered node. A failure is the panic of an `expect`. -/
def calleeRow (search : LevelSearch String TransitiveEdgeRef byteOrder) :
    String × Nat → Except String TransitiveCalleeRow
  | (node, hop) =>
      match byId[node]? with
      | none => .error "discovered nodes are live records"
      | some record =>
          match chainTo (fun pointer => pointer.2.1) search.parent anchorId hop node with
          | none => .error "every discovered node has a parent pointer"
          | some links =>
              let path := links.map calleePathStep
              .ok ⟨record, hop, path, weakestResolution path⟩

/-- The row order: hop, then record ID. -/
def calleeRowBefore (row later : TransitiveCalleeRow) : Prop :=
  row.hop < later.hop ∨ row.hop = later.hop ∧ byteOrder row.record.id later.record.id ≠ .gt

instance : DecidableRel calleeRowBefore := fun _ _ => inferInstanceAs (Decidable (_ ∨ _))

end Walk

/-- `transitive_callees`. -/
def transitiveCallees (records : List GraphRecord) (anchorId : String) (maxDepth : Nat) :
    Except String (Option TransitiveCalleesContext) :=
  let byId := liveById (Liveness.new records) records
  match byId[anchorId]? with
  | none => .ok none
  | some anchor => do
      let walk := calleeWalk records byId anchorId maxDepth
      let rows ← walk.hopOf.toList.mapM (calleeRow byId anchorId walk.search)
      return some {
        anchor := anchor
        rows := rows.insertionSort calleeRowBefore
        unresolved := (unresolvedCallees records byId anchorId walk.hopOf maxDepth).toList.map
          Prod.snd
        truncation := calleeTruncation records byId anchorId walk maxDepth
        maxDepth := maxDepth }

end Egregore
