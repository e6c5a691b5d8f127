import Egregore.Adapters.Embedded
import Egregore.Base.Traverse

/-!
# Slices of the embedded sink

The reads of `adapters/aletheiadb.rs` that return records of the whole store: the current
ones, those of its history, and the retained log observations.
-/

namespace Egregore

open Base

/-- The ids whose every physical version is current: project records are mutable. -/
def isProjectId (id : String) : Bool := "project:v1:".toList.isPrefixOf id.toList

namespace EmbeddedAletheiaSink

variable (env : Aletheia) (sink : EmbeddedAletheiaSink)

section Current

/-- The record id of an indexed tombstone whose target is not retracted. -/
def staleTombstoneRecordId (active : StrSet) (entry : String × Nat) :
    Except AdapterError (Option String) :=
  match sink.db.getNode entry.2 with
  | none => .error (.readBack "read_all_records" env.absent)
  | some stored =>
      match deletedIdOf stored with
      | none => .ok none
      | some deletedId => .ok (if active.contains deletedId then none else some entry.1)

/-- A physical project node, with its id. -/
def projectNode (active : StrSet) (nodeId : Nat) : Except AdapterError (Option (Nat × GraphRecord)) :=
  match sink.db.getNode nodeId with
  | none => .error (.readBack "read_all_records" env.absent)
  | some (.tombstone _ _) => .ok none
  | some (.node record _) =>
      if !isProjectId record.id || active.contains record.id then .ok none
      else (sink.readNodeRecord env record.id nodeId).map fun read => some (nodeId, read)

/-- The physical nodes that the commit index holds, under their record ids. -/
def commitNodes : List (String × Nat) :=
  sink.nodeLookup.byCommit.toList.flatMap fun (recordId, commits) =>
    commits.toList.map fun (_, candidate) => (recordId, candidate.storageId)

/-- A commit snapshot, also of a tombstoned record. -/
def snapshotNode (emitted : List Nat) (entry : String × Nat) :
    Except AdapterError (Option GraphRecord) :=
  if emitted.contains entry.2 then .ok none
  else (sink.readNodeRecord env entry.1 entry.2).map some

/-- A current node without temporal metadata. -/
def plainNode (active : StrSet) (emitted : List Nat) (entry : String × Nat) :
    Except AdapterError (Option GraphRecord) :=
  if active.contains entry.1 || emitted.contains entry.2 then .ok none
  else (sink.readNodeRecord env entry.1 entry.2).map some

/-- A tombstone that is not stale. -/
def currentTombstone (stale : List String) (entry : String × Nat) :
    Except AdapterError (Option GraphRecord) :=
  if stale.contains entry.1 then .ok none
  else (sink.readTombstoneRecord env entry.1 entry.2).map some

/-- What `latest_edge_versions` has met: the latest edge of each id, and the order of the ids. -/
structure LatestEdges where
  latest : StrMap (Option Nat × Nat) := ∅
  emitOrder : List String := []

/-- `candidate_is_later`. -/
def candidateIsLater : Option Nat × Nat → Option Nat × Nat → Bool
  | (some new, edgeId), (some current, currentId) =>
      decide (current < new) || decide (new = current) && decide (currentId < edgeId)
  | (some _, _), (none, _) => true
  | (none, _), (some _, _) => false
  | (none, edgeId), (none, currentId) => decide (currentId < edgeId)

/-- One edge of the scan. -/
def LatestEdges.meet (edges : LatestEdges) (edgeId : Nat) (edge : StoredEdge) : LatestEdges :=
  match edges.latest[edge.record.id]? with
  | none =>
      { latest := edges.latest.insert edge.record.id (edge.seq, edgeId)
        emitOrder := edges.emitOrder ++ [edge.record.id] }
  | some current =>
      if candidateIsLater (edge.seq, edgeId) current then
        { edges with latest := edges.latest.insert edge.record.id (edge.seq, edgeId) }
      else edges

/-- The scan of `latest_edge_versions`. -/
def scanEdges (active : StrSet) (edges : LatestEdges) (edgeId : Nat) :
    Except AdapterError LatestEdges :=
  match sink.db.getEdge edgeId with
  | none => .error (.readBack "latest_edge_versions" env.absent)
  | some edge => .ok (if active.contains edge.record.id then edges else edges.meet edgeId edge)

/-- `latest_edge_versions`. -/
def latestEdgeVersions (active : StrSet) : Except AdapterError (List (String × Nat)) :=
  ((sink.edgeScan env).foldlM (sink.scanEdges env active) {}).map fun edges =>
    edges.emitOrder.filterMap fun id => edges.latest[id]?.map fun entry => (id, entry.2)

/-- `read_all_records`. -/
def readAllRecords : Except AdapterError (List GraphRecord) := do
  let active ← sink.activeDeletedIds env
  let stale ← collectM (sink.staleTombstoneRecordId env active) sink.tombstoneIds.toList
  let projects ← collectM (sink.projectNode env active) (env.getAllNodeIds sink.db)
  let emitted := projects.map Prod.fst
  let snapshots ← collectM (sink.snapshotNode env emitted) sink.commitNodes
  let nodes ← collectM (sink.plainNode env active emitted) sink.nodeLookup.nonTemporal.toList
  let tombstones ← collectM (sink.currentTombstone env stale) sink.tombstoneIds.toList
  let versions ← sink.latestEdgeVersions env active
  let edges ← versions.mapM fun (recordId, edgeId) => sink.readEdgeRecord env recordId edgeId
  return projects.map Prod.snd ++ snapshots ++ nodes ++ tombstones ++ edges

end Current

section History

/-- The tombstones of a slice. -/
def isTombstone : GraphRecord → Bool
  | .tombstone _ => true
  | _ => false

/-- What the history read keeps of the current one: it writes plain nodes and tombstones anew. -/
def keptAhead : GraphRecord → Bool
  | .tombstone _ => false
  | .node record => record.temporal.isSome || isProjectId record.id
  | .edge _ => true

/-- A physical node version, with its sequence number. -/
def versionedNode (nodeId : Nat) : Except AdapterError (Option (Nat × GraphRecord)) :=
  if (sink.commitNodes.map Prod.snd).contains nodeId then .ok none
  else
    match sink.db.getNode nodeId with
    | none => .error (.readBack "read_all_records_including_superseded" env.absent)
    | some (.tombstone _ _) => .ok none
    | some (.node record seq) =>
        if isProjectId record.id then .ok none
        else (sink.readNodeRecord env record.id nodeId).map fun read => some (seq.getD 0, read)

/-- The sequence number under which a tombstone is indexed. -/
def tombstoneSeq (recordId : String) : Nat :=
  (sink.tombstoneIds[recordId]?.bind fun nodeId => sink.tombstoneNodeSeqs[nodeId]?).getD 0

/-- `read_all_records_including_superseded`. -/
def readAllRecordsIncludingSuperseded : Except AdapterError (List GraphRecord) := do
  let current ← sink.readAllRecords env
  let tombstones := current.filter isTombstone
  let versions ← collectM (sink.versionedNode env) (env.getAllNodeIds sink.db)
  let versioned := versions ++ tombstones.map fun record => (sink.tombstoneSeq record.id, record)
  return current.filter keptAhead ++
    (versioned.mergeSort fun entry other => entry.1 ≤ other.1).map Prod.snd

end History

section Logs

/-- One tombstone of `log_tombstone_boundary`. -/
def raiseBoundary (boundary : StrMap Nat) (nodeId : Nat) : Except AdapterError (StrMap Nat) :=
  match sink.db.getNode nodeId with
  | none => .error (.readBack "log_tombstone_boundary" env.absent)
  | some stored =>
      match deletedIdOf stored with
      | none => .ok boundary
      | some deletedId =>
          let seq := sink.tombstoneNodeSeqs[nodeId]?.getD 0
          .ok (boundary.insert deletedId
            (boundary[deletedId]?.elim seq fun current => max current seq))

/-- `log_tombstone_boundary`: the greatest sequence number of a tombstone of each id. -/
def logTombstoneBoundary : Except AdapterError (StrMap Nat) :=
  (sink.tombstoneIds.toList.map Prod.snd).foldlM (sink.raiseBoundary env) ∅

/-- The two kinds that carry log observations. -/
def isObservedKind : NodeKind → Bool
  | .errorSignature | .logOccurrenceBucket => true
  | _ => false

variable (toJson : List (String × String) → String)

/-- The fields of the log payload. -/
def logPayload (record : NodeRecord) : List (String × String) :=
  record.rest.filter fun entry => "log.".toList.isPrefixOf entry.1.toList

/-- `log_observation_key`: the whole payload, serialized. -/
def logObservationKey (record : NodeRecord) : Option String :=
  match record.rest.lookup "log.log_kind" with
  | some "error_signature" | some "log_occurrence_bucket" => some (toJson (logPayload record))
  | _ => none

/-- A physical node that is a log observation in force, with its sequence number. -/
def logObservation (active : StrSet) (boundary : StrMap Nat) (nodeId : Nat) :
    Except AdapterError (Option (Nat × GraphRecord)) :=
  match sink.db.getNode nodeId with
  | none => .error (.readBack "retained_log_observation_records" env.absent)
  | some (.tombstone _ _) => .ok none
  | some (.node record seq) =>
      if !isObservedKind record.kind then .ok none
      else if !sink.nodeLookup.nonTemporal.contains record.id then .ok none
      else if active.contains record.id then .ok none
      else if boundary[record.id]?.any fun last => seq.getD 0 ≤ last then .ok none
      else (sink.readNodeRecord env record.id nodeId).map fun read => some (seq.getD 0, read)

/-- The latest record of each observation, and the records without a key. -/
structure Retained where
  latest : Std.ExtTreeMap (String × String) (Nat × GraphRecord) pairOrder := ∅
  keyless : List (Nat × GraphRecord) := []

/-- One observation. -/
def Retained.add (retained : Retained) : Nat × GraphRecord → Retained
  | (seq, .node record) =>
      match logObservationKey toJson record with
      | none => { retained with keyless := retained.keyless ++ [(seq, .node record)] }
      | some key =>
          let replaces := match retained.latest[(record.id, key)]? with
            | none => true
            | some (current, _) => decide (current ≤ seq)
          if replaces then
            { retained with latest := retained.latest.insert (record.id, key) (seq, .node record) }
          else retained
  | entry => { retained with keyless := retained.keyless ++ [entry] }

/-- The order of the retained records: by sequence number, then by id. -/
def retainedBefore (entry other : Nat × GraphRecord) : Bool :=
  decide (entry.1 < other.1) ||
    decide (entry.1 = other.1) && byteOrder entry.2.id other.2.id != .gt

/-- `retained_log_observation_records`. -/
def retainedLogObservationRecords : Except AdapterError (List GraphRecord) := do
  let active ← sink.activeDeletedIds env
  let boundary ← sink.logTombstoneBoundary env
  let observations ← collectM (sink.logObservation env active boundary) (env.getAllNodeIds sink.db)
  let retained := observations.foldl (Retained.add toJson) {}
  let out := retained.latest.toList.map Prod.snd ++ retained.keyless
  return (out.mergeSort retainedBefore).map Prod.snd

end Logs

end EmbeddedAletheiaSink

end Egregore
