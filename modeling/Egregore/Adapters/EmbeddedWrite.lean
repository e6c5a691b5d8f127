import Egregore.Adapters.Embedded

/-!
# Writing to and opening the embedded sink

Each write looks for a stored copy first, and otherwise creates one physical
object and its bookkeeping. Opening a store rebuilds every index from the
physical objects. A failed write keeps what it had done to the sink.
-/

namespace Egregore

open Base

namespace EmbeddedAletheiaSink

variable (env : Aletheia) (sink : EmbeddedAletheiaSink)

section Write

/-- `bookkeep_node_write`. -/
def bookkeepNodeWrite (record : NodeRecord) (nodeId : Nat) :
    EmbeddedAletheiaSink × Except AdapterError Unit :=
  match sink.db.getNode nodeId with
  | none => (sink, .error (.readBack record.id env.absent))
  | some stored =>
      if stored.record.id ≠ record.id then
        (sink, .error (.readBack record.id "embedded node codegraph_id mismatch"))
      else
        match temporalReadKeyFromProperties env record.id stored.record.temporal with
        | .error fault => (sink, .error fault)
        | .ok key =>
            ({ sink with
                nodeLookup := sink.nodeLookup.insert record.id nodeId key
                recordHandles := sink.recordHandles.insert record.id (.node nodeId) }, .ok ())

/-- `bookkeep_tombstone_write`. -/
def bookkeepTombstoneWrite (record : TombstoneRecord) (nodeId seq : Nat) :
    EmbeddedAletheiaSink × Except AdapterError Unit :=
  match sink.db.getNode nodeId with
  | none => (sink, .error (.readBack record.id env.absent))
  | some stored =>
      if stored.record.id ≠ record.id then
        (sink, .error (.readBack record.id "embedded tombstone codegraph_id mismatch"))
      else
        ({ sink with
            tombstoneIds := sink.tombstoneIds.insert record.id nodeId
            tombstoneNodeSeqs := sink.tombstoneNodeSeqs.insert nodeId seq
            recordHandles := sink.recordHandles.insert record.id (.tombstone nodeId) }, .ok ())

/-- `bookkeep_edge_write`. -/
def bookkeepEdgeWrite (record : EdgeRecord) (edgeId source target seq : Nat) :
    EmbeddedAletheiaSink × Except AdapterError Unit :=
  match sink.db.getEdge edgeId with
  | none => (sink, .error (.readBack record.id env.absent))
  | some stored =>
      if stored.source ≠ source ∨ stored.target ≠ target then
        (sink, .error (.readBack record.id "embedded edge endpoint mismatch"))
      else
        ({ sink with
            recordHandles := sink.recordHandles.insert record.id (.edge edgeId)
            edgeSeqs := sink.edgeSeqs.insert record.id seq }, .ok ())

/-- The next `egregore_seq`, taken when a write is prepared. -/
def prepare : EmbeddedAletheiaSink × Nat :=
  ({ sink with writeSeq := sink.writeSeq + 1 }, sink.writeSeq + 1)

/-- The physical object a node write prepares. -/
def preparedNode (record : NodeRecord) (seq : Nat) : Stored := .node (.node record.stored (some seq))

def preparedTombstone (record : TombstoneRecord) (seq : Nat) : Stored :=
  .node (.tombstone record (some seq))

def preparedEdge (record : EdgeRecord) (source target seq : Nat) : Stored :=
  .edge ⟨record.stored, source, target, some seq⟩

/-- Create a physical object, unless AletheiaDB refuses it. -/
def create (stored : Stored) : EmbeddedAletheiaSink × Except String Nat :=
  match env.refuses sink.db stored with
  | some message => (sink, .error message)
  | none => ({ sink with db := sink.db ++ [stored] }, .ok sink.db.length)

/-- Report a finished write. -/
def reported : EmbeddedAletheiaSink × Except AdapterError Unit →
    EmbeddedAletheiaSink × Except AdapterError WriteOutcome
  | (sink, .ok ()) => (sink, .ok .inserted)
  | (sink, .error fault) => (sink, .error fault)

/-- The second half of `write_node`. -/
def createNode (record : NodeRecord) : EmbeddedAletheiaSink × Except AdapterError WriteOutcome :=
  let (sink, seq) := sink.prepare
  match sink.create env (preparedNode record seq) with
  | (sink, .error message) => (sink, .error (classifyStoreError record.id message))
  | (sink, .ok nodeId) => reported (sink.bookkeepNodeWrite env record nodeId)

/-- The second half of `write_tombstone`. -/
def createTombstone (record : TombstoneRecord) :
    EmbeddedAletheiaSink × Except AdapterError WriteOutcome :=
  let (sink, seq) := sink.prepare
  match sink.create env (preparedTombstone record seq) with
  | (sink, .error message) => (sink, .error (.rejected record.id message))
  | (sink, .ok nodeId) => reported (sink.bookkeepTombstoneWrite env record nodeId seq)

/-- `resolve_node_id`. -/
def resolveNodeId (edgeId recordId : String) (temporal : Option TemporalMetadata)
    (endpoint : String) : Except AdapterError Nat :=
  match sink.nodeLookup.endpointNode recordId (temporal.map TemporalMetadata.gitCommit) with
  | .error message =>
      .error (.rejected edgeId (endpoint ++ " node " ++ recordId ++ " " ++ message))
  | .ok (some nodeId) => .ok nodeId
  | .ok none =>
      .error (.rejected edgeId (endpoint ++ " node " ++ recordId ++ " has not been written"))

/-- `write_edge`, once its endpoints are resolved. -/
def createResolvedEdge (record : EdgeRecord) (source target : Nat) :
    EmbeddedAletheiaSink × Except AdapterError WriteOutcome :=
  let (sink, seq) := sink.prepare
  match sink.create env (preparedEdge record source target seq) with
  | (sink, .error message) => (sink, .error (.rejected record.id message))
  | (sink, .ok edgeId) => reported (sink.bookkeepEdgeWrite env record edgeId source target seq)

/-- The second half of `write_edge`. -/
def createEdge (record : EdgeRecord) : EmbeddedAletheiaSink × Except AdapterError WriteOutcome :=
  match sink.resolveNodeId record.id record.source record.temporal "source" with
  | .error fault => (sink, .error fault)
  | .ok source =>
      match sink.resolveNodeId record.id record.target record.temporal "target" with
      | .error fault => (sink, .error fault)
      | .ok target => sink.createResolvedEdge env record source target

/-- The no-op guard of `write_node` and `write_edge`: a stored copy that no tombstone
suppresses. -/
def storedAndLive (record : GraphRecord) : Except AdapterError Bool :=
  match sink.expectedRecordState env record with
  | .error fault => .error fault
  | .ok .matched =>
      match sink.activeDeletedIds env with
      | .error fault => .error fault
      | .ok deleted => .ok (!deleted.contains record.id)
  | .ok _ => .ok false

/-- The no-op guard of `write_tombstone`: a stored copy that nothing supersedes. -/
def storedAndActive (record : TombstoneRecord) : Except AdapterError Bool :=
  match sink.expectedRecordState env (.tombstone record) with
  | .error fault => .error fault
  | .ok .matched =>
      match sink.storedTombstoneIsStale env record.id with
      | .error fault => .error fault
      | .ok stale => .ok (!stale)
  | .ok _ => .ok false

/-- Skip a write whose guard holds. -/
def unlessStored (guard : Except AdapterError Bool)
    (write : EmbeddedAletheiaSink × Except AdapterError WriteOutcome) :
    EmbeddedAletheiaSink × Except AdapterError WriteOutcome :=
  match guard with
  | .error fault => (sink, .error fault)
  | .ok true => (sink, .ok .unchanged)
  | .ok false => write

/-- `write_node`. -/
def writeNode (record : NodeRecord) : EmbeddedAletheiaSink × Except AdapterError WriteOutcome :=
  sink.unlessStored (sink.storedAndLive env (.node record)) (sink.createNode env record)

/-- `write_edge`. -/
def writeEdge (record : EdgeRecord) : EmbeddedAletheiaSink × Except AdapterError WriteOutcome :=
  sink.unlessStored (sink.storedAndLive env (.edge record)) (sink.createEdge env record)

/-- `write_tombstone`. -/
def writeTombstone (record : TombstoneRecord) :
    EmbeddedAletheiaSink × Except AdapterError WriteOutcome :=
  sink.unlessStored (sink.storedAndActive env record) (sink.createTombstone env record)

/-- `write_record`. -/
def writeRecord (record : GraphRecord) :
    EmbeddedAletheiaSink × Except AdapterError WriteOutcome :=
  match validateAdapterRecordVersion record with
  | .error fault => (sink, .error fault)
  | .ok () =>
      match record with
      | .node node => sink.writeNode env node
      | .edge edge => sink.writeEdge env edge
      | .tombstone tombstone => sink.writeTombstone env tombstone

/-- `write_and_verify`. -/
def writeAndVerify (record : GraphRecord) :
    EmbeddedAletheiaSink × Except AdapterError WriteOutcome :=
  match validateAdapterRecordVersion record with
  | .error fault => (sink, .error fault)
  | .ok () =>
      match sink.writeRecord env record with
      | (sink, .error fault) => (sink, .error fault)
      | (sink, .ok outcome) =>
          match sink.verifyRecord env record with
          | .error fault => (sink, .error fault)
          | .ok () => (sink, .ok outcome)

end Write

section Open

/-- `index_stored_node`. -/
def indexStoredNode (nodeId : Nat) (errorRecordId : String) :
    Except AdapterError EmbeddedAletheiaSink :=
  match sink.db.getNode nodeId with
  | none => .error (.readBack errorRecordId env.absent)
  | some (.node record seq) =>
      match temporalReadKeyFromProperties env record.id record.temporal with
      | .error fault => .error fault
      | .ok key =>
          .ok { sink with
            nodeLookup := sink.nodeLookup.insert record.id nodeId key
            writeSeq := max sink.writeSeq (seq.getD 0) }
  | some (.tombstone record _) =>
      .ok { sink with
        tombstoneIds := sink.tombstoneIds.insert record.id
          (greaterId sink.tombstoneIds[record.id]? nodeId) }

/-- What `rebuild_lookup_indexes` does with one outgoing edge. -/
def rebuildEdgeSeq (edgeId : Nat) : Except AdapterError EmbeddedAletheiaSink :=
  match sink.db.getEdge edgeId with
  | none => .error (.readBack "rebuild_lookup_indexes" env.absent)
  | some edge =>
      match edge.seq with
      | some seq =>
          .ok { sink with
            edgeSeqs := sink.edgeSeqs.insert edge.record.id
              (max (sink.edgeSeqs.getD edge.record.id 0) seq)
            writeSeq := max sink.writeSeq seq }
      | none =>
          .ok { sink with
            legacyEdgeCounts := sink.legacyEdgeCounts.insert edge.record.id
              (sink.legacyEdgeCounts.getD edge.record.id 0 + 1) }

/-- What `rebuild_lookup_indexes` does with one physical node. -/
def rebuildNode (nodeId : Nat) : Except AdapterError EmbeddedAletheiaSink :=
  match sink.indexStoredNode env nodeId "embedded-store" with
  | .error fault => .error fault
  | .ok sink =>
      (env.getOutgoingEdges sink.db nodeId).foldlM (fun sink => rebuildEdgeSeq env sink) sink

/-- The second pass of `rebuild_lookup_indexes`, on one tombstone node. -/
def rebuildTombstoneSeq (tombstoneNodeId : Nat) : Except AdapterError EmbeddedAletheiaSink :=
  match sink.db.getNode tombstoneNodeId with
  | none => .error (.readBack "rebuild_lookup_indexes" env.absent)
  | some stored =>
      match stored.seq with
      | none => .ok sink
      | some seq =>
          .ok { sink with
            tombstoneNodeSeqs := sink.tombstoneNodeSeqs.insert tombstoneNodeId seq
            writeSeq := max sink.writeSeq seq }

/-- `rebuild_lookup_indexes`. -/
def rebuildLookupIndexes : Except AdapterError EmbeddedAletheiaSink :=
  match (env.getAllNodeIds sink.db).foldlM (fun sink => rebuildNode env sink) sink with
  | .error fault => .error fault
  | .ok sink =>
      (sink.tombstoneIds.toList.map Prod.snd).foldlM (fun sink => rebuildTombstoneSeq env sink) sink

/-- `open`: the indexes of a store, rebuilt from its physical objects. -/
def openStore (db : Database) : Except AdapterError EmbeddedAletheiaSink :=
  rebuildLookupIndexes env { db := db }

end Open

end EmbeddedAletheiaSink

end Egregore
