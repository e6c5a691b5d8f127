import Egregore.Adapters.NodeLookup
import Egregore.Adapters.Sink

/-!
# Embedded sink

`adapters/aletheiadb.rs`: records stored as physical nodes and edges of an
embedded AletheiaDB, with the indexes the sink keeps beside them. A stored
object is represented by the record its properties decode to. The database is
the list of its objects in the order of their creation, and an object's id is
its position: AletheiaDB hands out increasing ids, and the sink only compares
ids of one kind with one another.
-/

namespace Egregore

open Base

/-- A physical node: a graph node or a tombstone, with its `egregore_seq`. -/
inductive StoredNode where
  | node (record : NodeRecord) (seq : Option Nat)
  | tombstone (record : TombstoneRecord) (seq : Option Nat)
  deriving DecidableEq, Repr

/-- A physical edge between two physical nodes. -/
structure StoredEdge where
  record : EdgeRecord
  source : Nat
  target : Nat
  seq : Option Nat
  deriving DecidableEq, Repr

/-- A physical object. -/
inductive Stored where
  | node (stored : StoredNode)
  | edge (stored : StoredEdge)
  deriving DecidableEq, Repr

/-- The physical objects, in the order of their creation. -/
abbrev Database := List Stored

namespace StoredNode

def record : StoredNode → GraphRecord
  | .node record _ => .node record
  | .tombstone record _ => .tombstone record

def seq : StoredNode → Option Nat
  | .node _ seq => seq
  | .tombstone _ seq => seq

end StoredNode

namespace Stored

def record : Stored → GraphRecord
  | .node stored => stored.record
  | .edge stored => .edge stored.record

def seq : Stored → Option Nat
  | .node stored => stored.seq
  | .edge stored => stored.seq

def node? : Stored → Option StoredNode
  | .node stored => some stored
  | .edge _ => none

def edge? : Stored → Option StoredEdge
  | .node _ => none
  | .edge stored => some stored

end Stored

namespace Database

/-- `get_node`. -/
def getNode (db : Database) (id : Nat) : Option StoredNode := db[id]?.bind Stored.node?

/-- `get_edge`. -/
def getEdge (db : Database) (id : Nat) : Option StoredEdge := db[id]?.bind Stored.edge?

/-- The ids of the physical nodes, oldest first. -/
def nodeIds (db : Database) : List Nat :=
  (List.range db.length).filter fun id => (db.getNode id).isSome

/-- The ids of the edges out of a node, oldest first. -/
def outgoing (db : Database) (node : Nat) : List Nat :=
  (List.range db.length).filter fun id => (db.getEdge id).any fun edge => edge.source = node

end Database

/-- What the sink takes from its libraries: the RFC 3339 reader, the writes AletheiaDB
refuses, the orders in which it enumerates, and its text for a missing object. -/
structure Aletheia where
  parseFromRfc3339 : String → Except String Int
  refuses : Database → Stored → Option String
  getAllNodeIds : Database → List Nat
  getAllNodeIds_perm : ∀ db, (getAllNodeIds db).Perm db.nodeIds
  getOutgoingEdges : Database → Nat → List Nat
  getOutgoingEdges_perm : ∀ db node, (getOutgoingEdges db node).Perm (db.outgoing node)
  absent : String

/-- Where the bytes of a record are: `StoredRecord`. -/
inductive StoredRecord where
  | node (id : Nat)
  | edge (id : Nat)
  | tombstone (id : Nat)
  deriving DecidableEq, Repr

/-- `EmbeddedAletheiaSink`, without its lease and its embedding vectors. -/
structure EmbeddedAletheiaSink where
  db : Database := []
  nodeLookup : NodeLookupIndex := {}
  tombstoneIds : StrMap Nat := ∅
  recordHandles : StrMap StoredRecord := ∅
  writeSeq : Nat := 0
  edgeSeqs : StrMap Nat := ∅
  tombstoneNodeSeqs : Std.ExtTreeMap Nat Nat compare := ∅
  legacyEdgeCounts : StrMap Nat := ∅

/-- Parent commits are stored joined by spaces and read back split at whitespace. -/
def storedParents (parents : List String) : List String :=
  (splitWhitespace (" ".intercalate parents).toList).map String.ofList

def TemporalMetadata.stored (temporal : TemporalMetadata) : TemporalMetadata :=
  { temporal with gitParentCommits := storedParents temporal.gitParentCommits }

/-- The node record its properties decode to. -/
def NodeRecord.stored (record : NodeRecord) : NodeRecord :=
  { record with temporal := record.temporal.map TemporalMetadata.stored }

/-- The edge record its properties decode to. -/
def EdgeRecord.stored (record : EdgeRecord) : EdgeRecord :=
  { record with temporal := record.temporal.map TemporalMetadata.stored }

section Keys

variable (env : Aletheia)

/-- `required_rfc3339_property`, of a property that is present. -/
def requiredRfc3339Property (recordId key raw : String) : Except AdapterError Int :=
  match env.parseFromRfc3339 raw with
  | .ok instant => .ok instant
  | .error message => .error (.readBack recordId
      ("embedded timestamp property " ++ key ++ " is not RFC3339: " ++ message))

/-- `temporal_read_key_from_properties`. -/
def temporalReadKeyFromProperties (recordId : String) :
    Option TemporalMetadata → Except AdapterError (Option TemporalReadKey)
  | none => .ok none
  | some temporal => do
      let validTime ← requiredRfc3339Property env recordId "valid_time" temporal.validTime
      let observedAt ← requiredRfc3339Property env recordId "observed_at" temporal.observedAt
      return some ⟨validTime, observedAt, temporal.gitCommit⟩

/-- `temporal_read_key_from_metadata`. -/
def temporalReadKeyFromMetadata (temporal : TemporalMetadata) : Option TemporalReadKey :=
  match env.parseFromRfc3339 temporal.validTime, env.parseFromRfc3339 temporal.observedAt with
  | .ok validTime, .ok observedAt => some ⟨validTime, observedAt, temporal.gitCommit⟩
  | _, _ => none

/-- A record version check passed on to the reader. -/
def validated (record : GraphRecord) : Except AdapterError GraphRecord :=
  match validateAdapterRecordVersion record with
  | .ok () => .ok record
  | .error fault => .error fault

end Keys

namespace EmbeddedAletheiaSink

variable (env : Aletheia) (sink : EmbeddedAletheiaSink)

section Read

/-- `read_node_record`. -/
def readNodeRecord (recordId : String) (nodeId : Nat) : Except AdapterError GraphRecord :=
  match sink.db.getNode nodeId with
  | none => .error (.readBack recordId env.absent)
  | some stored =>
      if stored.record.id ≠ recordId then
        .error (.readBack recordId ("embedded node codegraph_id mismatch: " ++ stored.record.id))
      else
        match stored with
        | .node record _ => validated (.node record)
        | .tombstone _ _ => .error (.readBack recordId "missing embedded string property kind")

/-- `read_tombstone_record`. -/
def readTombstoneRecord (recordId : String) (nodeId : Nat) : Except AdapterError GraphRecord :=
  match sink.db.getNode nodeId with
  | none => .error (.readBack recordId env.absent)
  | some stored =>
      if stored.record.id ≠ recordId then
        .error (.readBack recordId
          ("embedded tombstone codegraph_id mismatch: " ++ stored.record.id))
      else
        match stored with
        | .node _ _ => .error (.readBack recordId "embedded tombstone record_type mismatch: node")
        | .tombstone record _ => validated (.tombstone record)

/-- `read_edge_record`. -/
def readEdgeRecord (recordId : String) (edgeId : Nat) : Except AdapterError GraphRecord :=
  match sink.db.getEdge edgeId with
  | none => .error (.readBack recordId env.absent)
  | some stored =>
      if stored.record.id ≠ recordId then
        .error (.readBack recordId ("embedded edge codegraph_id mismatch: " ++ stored.record.id))
      else validated (.edge stored.record)

/-- Every edge id, as the loops over nodes and their outgoing edges meet them. -/
def edgeScan : List Nat :=
  (env.getAllNodeIds sink.db).flatMap (env.getOutgoingEdges sink.db)

/-- The loop of `find_edge_id_by_codegraph_id_until`. -/
def findEdge (recordId : String) :
    List Nat → Option ReadBackCandidate → Except AdapterError (Option ReadBackCandidate)
  | [], found => .ok found
  | edgeId :: rest, found =>
      match sink.db.getEdge edgeId with
      | none => .error (.readBack recordId env.absent)
      | some edge =>
          if edge.record.id = recordId then
            match temporalReadKeyFromProperties env recordId edge.record.temporal with
            | .error fault => .error fault
            | .ok key =>
                findEdge recordId rest
                  (if shouldReplaceReadBackCandidate found ⟨edgeId, key⟩ then some ⟨edgeId, key⟩
                  else found)
          else findEdge recordId rest found

/-- `read_back`: a node before a tombstone before an edge, whatever is tombstoned. -/
def readBack (recordId : String) : Except AdapterError (Option GraphRecord) :=
  match sink.nodeLookup.latestNode recordId with
  | some nodeId => (sink.readNodeRecord env recordId nodeId).map some
  | none =>
      match sink.tombstoneIds[recordId]? with
      | some nodeId => (sink.readTombstoneRecord env recordId nodeId).map some
      | none =>
          match sink.findEdge env recordId (sink.edgeScan env) none with
          | .error fault => .error fault
          | .ok none => .ok none
          | .ok (some found) => (sink.readEdgeRecord env recordId found.storageId).map some

/-- Equal up to the producer start time. -/
def sameRecord (record other : GraphRecord) : Bool :=
  record.withClearedProducerStartedAt = other.withClearedProducerStartedAt

/-- `compare_latest_record`. -/
def compareLatestRecord (record : GraphRecord) : Except AdapterError ExpectedRecordState :=
  match sink.readBack env record.id with
  | .error fault => .error fault
  | .ok none => .ok .missing
  | .ok (some found) => .ok (if sameRecord found record then .matched else .mismatched)

/-- `compare_node_record`. -/
def compareNodeRecord (recordId : String) (nodeId : Nat) (expected : GraphRecord) :
    Except AdapterError ExpectedRecordState :=
  match sink.readNodeRecord env recordId nodeId with
  | .error fault => .error fault
  | .ok found => .ok (if sameRecord found expected then .matched else .mismatched)

/-- The loop of `compare_edge_record`: any physical version may match. -/
def compareEdges (recordId : String) (expected : GraphRecord) :
    List Nat → Bool → Except AdapterError ExpectedRecordState
  | [], sawSameId => .ok (if sawSameId then .mismatched else .missing)
  | edgeId :: rest, sawSameId =>
      match sink.db.getEdge edgeId with
      | none => .error (.readBack recordId env.absent)
      | some edge =>
          if edge.record.id = recordId then
            match sink.readEdgeRecord env recordId edgeId with
            | .error fault => .error fault
            | .ok found =>
                if sameRecord found expected then .ok .matched
                else compareEdges recordId expected rest true
          else compareEdges recordId expected rest sawSameId

/-- `compare_edge_record`. -/
def compareEdgeRecord (recordId : String) (expected : GraphRecord) :
    Except AdapterError ExpectedRecordState :=
  sink.compareEdges env recordId expected (sink.edgeScan env) false

/-- `expected_record_state`. -/
def expectedRecordState (record : GraphRecord) : Except AdapterError ExpectedRecordState :=
  match record with
  | .node node =>
      match node.temporal with
      | none => sink.compareLatestRecord env record
      | some temporal =>
          match temporalReadKeyFromMetadata env temporal with
          | none => sink.compareLatestRecord env record
          | some key =>
              match sink.nodeLookup.nodeForObservation node.id key with
              | some nodeId => sink.compareNodeRecord env node.id nodeId record
              | none => .ok .missing
  | .edge edge => sink.compareEdgeRecord env edge.id record
  | .tombstone _ => sink.compareLatestRecord env record

/-- `tombstone_node_is_stale`. -/
def tombstoneNodeIsStale (tombstoneNodeId : Nat) (deletedId : String) : Bool :=
  let nodeStale := sink.nodeLookup.nonTemporal[deletedId]?.any fun live => tombstoneNodeId < live
  let edgeStale :=
    match sink.edgeSeqs[deletedId]?, sink.tombstoneNodeSeqs[tombstoneNodeId]? with
    | some edgeSeq, some tombstoneSeq => decide (tombstoneSeq < edgeSeq)
    | some _, none => true
    | none, some _ => false
    | none, none => sink.legacyEdgeCounts[deletedId]?.any fun count => 1 < count
  nodeStale || edgeStale

/-- The `deleted_id` of a stored tombstone. -/
def deletedIdOf : StoredNode → Option String
  | .node _ _ => none
  | .tombstone record _ => some record.deletedId

/-- One round of `active_deleted_ids`. -/
def addActiveDeletedId (deleted : StrSet) (nodeId : Nat) : Except AdapterError StrSet :=
  match sink.db.getNode nodeId with
  | none => .error (.readBack "active_deleted_ids" env.absent)
  | some stored =>
      match deletedIdOf stored with
      | none => .ok deleted
      | some deletedId =>
          .ok (if sink.tombstoneNodeIsStale nodeId deletedId then deleted
            else deleted.insert deletedId)

/-- `active_deleted_ids`. -/
def activeDeletedIds : Except AdapterError StrSet :=
  (sink.tombstoneIds.toList.map Prod.snd).foldlM (sink.addActiveDeletedId env) ∅

/-- `stored_tombstone_is_stale`. -/
def storedTombstoneIsStale (tombstoneRecordId : String) : Except AdapterError Bool :=
  match sink.tombstoneIds[tombstoneRecordId]? with
  | none => .ok false
  | some nodeId =>
      match sink.db.getNode nodeId with
      | none => .error (.readBack tombstoneRecordId env.absent)
      | some stored =>
          match deletedIdOf stored with
          | none => .ok false
          | some deletedId => .ok (sink.tombstoneNodeIsStale nodeId deletedId)

/-- `read_handle`. -/
def readHandle (recordId : String) : StoredRecord → Except AdapterError GraphRecord
  | .node id => sink.readNodeRecord env recordId id
  | .edge id => sink.readEdgeRecord env recordId id
  | .tombstone id => sink.readTombstoneRecord env recordId id

/-- `verify_record`: strictly through the session's handle, else by the expected state. -/
def verifyRecord (record : GraphRecord) : Except AdapterError Unit :=
  match sink.recordHandles[record.id]? with
  | none =>
      match sink.expectedRecordState env record with
      | .error fault => .error fault
      | .ok .matched => .ok ()
      | .ok _ => .error (.readBack record.id "record missing after write")
  | some handle =>
      match sink.readHandle env record.id handle with
      | .error fault => .error fault
      | .ok found =>
          if found = record then .ok () else .error (.readBack record.id "record mismatch")

end Read

end EmbeddedAletheiaSink

end Egregore
