import Egregore.Adapters.EmbeddedWrite

/-!
# Bulk writes to the embedded sink

A run of records is written in chunks, each in one transaction. Records that bear on one another are
written one by one in their places, and so is an edge whose endpoints depend on a write of its chunk.
The trail of a run holds the sink after each of its commits.
-/

namespace Egregore

open Base

/-- `EndpointRef`. -/
inductive EndpointRef where
  | known (nodeId : Nat)
  | deferred (recordId : String)
  deriving DecidableEq, Repr

/-- `BulkEndpoint`. -/
inductive BulkEndpoint where
  | resolved (endpoint : EndpointRef)
  | perRecord
  | failed (fault : AdapterError)
  deriving DecidableEq, Repr

/-- `PreparedWrite`, with the record that its properties are made of. -/
inductive PreparedWrite where
  | node (record : NodeRecord) (seq : Nat)
  | edge (record : EdgeRecord) (seq : Nat) (source target : EndpointRef)
  | tombstone (record : TombstoneRecord) (seq : Nat)
  deriving DecidableEq, Repr

/-- `CreatedWrite`, with its record. -/
inductive CreatedWrite where
  | node (record : NodeRecord) (nodeId : Nat)
  | edge (record : EdgeRecord) (edgeId source target seq : Nat)
  | tombstone (record : TombstoneRecord) (nodeId seq : Nat)
  deriving DecidableEq, Repr

/-- `BulkChunkItem`. -/
inductive BulkChunkItem where
  | unchanged
  | write (prepared : PreparedWrite)
  | failed (fault : AdapterError)
  deriving DecidableEq, Repr

/-- A chunk item after the transaction of its chunk. -/
inductive CommittedItem where
  | unchanged
  | created (write : CreatedWrite)
  | rolledBack
  | failed (fault : AdapterError)
  deriving DecidableEq, Repr

/-- Each stable record ID with the physical edges that carry it, in storage order. -/
abbrev EdgeIndex := StrMap (List Nat)

def EdgeIndex.note (index : EdgeIndex) (recordId : String) (edgeId : Nat) : EdgeIndex :=
  index.alter recordId fun edges => some (edges.getD [] ++ [edgeId])

/-- What becomes of a chunk: its items, or none of it is classified in bulk, or the record in a slot
is written by itself. -/
inductive ChunkClasses where
  | items (items : List BulkChunkItem)
  | perRecord
  | splitAt (slot : Nat)

namespace EmbeddedAletheiaSink

variable (env : Aletheia) (sink : EmbeddedAletheiaSink)

section Classify

/-- `build_edge_index`. -/
def buildEdgeIndex : Except AdapterError EdgeIndex :=
  (sink.edgeScan env).foldlM (fun index edgeId =>
    match sink.db.getEdge edgeId with
    | none => .error (.readBack "bulk-edge-index" env.absent)
    | some edge => .ok (EdgeIndex.note index edge.record.id edgeId)) ∅

/-- The loop of `classify_edge_with_index`. -/
def classifyCandidates (recordId : String) (expected : GraphRecord) :
    List Nat → Bool → Except AdapterError ExpectedRecordState
  | [], sawSameId => .ok (if sawSameId then .mismatched else .missing)
  | edgeId :: rest, _ =>
      match sink.readEdgeRecord env recordId edgeId with
      | .error fault => .error fault
      | .ok found =>
          if sameRecord found expected then .ok .matched
          else classifyCandidates recordId expected rest true

/-- `classify_edge_with_index`. -/
def classifyEdgeWithIndex (record : EdgeRecord) (index : EdgeIndex) :
    Except AdapterError ExpectedRecordState :=
  sink.classifyCandidates env record.id (.edge record) (index.getD record.id []) false

/-- `bulk_endpoint_ref`; `nodeWrites` are the node writes of the chunk so far. -/
def bulkEndpointRef (record : EdgeRecord) (endpointId endpoint : String)
    (nodeWrites : StrMap NodeRecord) : BulkEndpoint :=
  match sink.resolveNodeId record.id endpointId record.temporal endpoint with
  | .ok nodeId => if nodeWrites.contains endpointId then .perRecord else .resolved (.known nodeId)
  | .error fault =>
      let noStoredCandidate :=
        sink.nodeLookup.endpointNode endpointId (record.temporal.map TemporalMetadata.gitCommit)
          matches .ok none
      let deferrable := record.temporal.isNone && noStoredCandidate &&
        nodeWrites[endpointId]?.any fun node => node.temporal.isNone
      if deferrable then .resolved (.deferred endpointId)
      else if nodeWrites.contains endpointId then .perRecord
      else .failed fault

/-- A record in the classification loop: its item, or a reason to stop. -/
inductive Classified where
  | item (item : BulkChunkItem)
  | perRecord
  | split

/-- The classification of a node. -/
def classifyNode (deleted : StrSet) (record : NodeRecord) : EmbeddedAletheiaSink × BulkChunkItem :=
  match sink.expectedRecordState env (.node record) with
  | .error fault => (sink, .failed fault)
  | .ok expected =>
      if expected = .matched ∧ deleted.contains record.id = false then (sink, .unchanged)
      else
        let (sink, seq) := sink.prepare
        (sink, .write (.node record seq))

/-- The classification of an edge. -/
def classifyEdge (deleted : StrSet) (nodeWrites : StrMap NodeRecord) (index : EdgeIndex)
    (record : EdgeRecord) : EmbeddedAletheiaSink × Classified :=
  match sink.classifyEdgeWithIndex env record index with
  | .error fault => (sink, .item (.failed fault))
  | .ok expected =>
      if expected = .matched ∧ deleted.contains record.id = false then (sink, .item .unchanged)
      else
        match sink.bulkEndpointRef record record.source "source" nodeWrites with
        | .perRecord => (sink, .split)
        | .failed fault => (sink, .item (.failed fault))
        | .resolved source =>
            match sink.bulkEndpointRef record record.target "target" nodeWrites with
            | .perRecord => (sink, .split)
            | .failed fault => (sink, .item (.failed fault))
            | .resolved target =>
                let (sink, seq) := sink.prepare
                (sink, .item (.write (.edge record seq source target)))

/-- The classification of a tombstone. -/
def classifyTombstone (record : TombstoneRecord) : EmbeddedAletheiaSink × BulkChunkItem :=
  match sink.storedAndActive env record with
  | .error fault => (sink, .failed fault)
  | .ok true => (sink, .unchanged)
  | .ok false =>
      let (sink, seq) := sink.prepare
      (sink, .write (.tombstone record seq))

/-- One round of the classification loop; the first edge builds the index. -/
def classifyRecord (deleted : StrSet) (nodeWrites : StrMap NodeRecord) (index : Option EdgeIndex)
    (record : GraphRecord) : EmbeddedAletheiaSink × Option EdgeIndex × Classified :=
  match validateAdapterRecordVersion record with
  | .error fault => (sink, index, .item (.failed fault))
  | .ok () =>
      match record with
      | .node node =>
          let (sink, item) := sink.classifyNode env deleted node
          (sink, index, .item item)
      | .edge edge =>
          match index.elim (sink.buildEdgeIndex env) .ok with
          | .error _ => (sink, index, .perRecord)
          | .ok index =>
              let (sink, classified) := sink.classifyEdge env deleted nodeWrites index edge
              (sink, some index, classified)
      | .tombstone tombstone =>
          let (sink, item) := sink.classifyTombstone env tombstone
          (sink, index, .item item)

/-- The node writes of a chunk, after one more item. -/
def noteNodeWrite (nodeWrites : StrMap NodeRecord) : GraphRecord → BulkChunkItem → StrMap NodeRecord
  | .node node, .write _ => nodeWrites.insert node.id node
  | _, _ => nodeWrites

/-- The classification loop of `write_chunk_bulk_pass`, after the items so far. -/
def classifyChunk (deleted : StrSet) :
    List GraphRecord → List BulkChunkItem → StrMap NodeRecord → Option EdgeIndex →
      EmbeddedAletheiaSink → EmbeddedAletheiaSink × Option EdgeIndex × ChunkClasses
  | [], items, _, index, sink => (sink, index, .items items)
  | record :: rest, items, nodeWrites, index, sink =>
      match sink.classifyRecord env deleted nodeWrites index record with
      | (sink, index, .item item) =>
          classifyChunk deleted rest (items ++ [item]) (noteNodeWrite nodeWrites record item) index
            sink
      | (sink, index, .perRecord) => (sink, index, .perRecord)
      | (sink, index, .split) => (sink, index, .splitAt items.length)

end Classify

section Commit

/-- The node an endpoint names, among the nodes of the transaction. -/
def resolveEndpoint (chunkNodes : StrMap Nat) : EndpointRef → Except String Nat
  | .known nodeId => .ok nodeId
  | .deferred recordId =>
      match chunkNodes[recordId]? with
      | some nodeId => .ok nodeId
      | none => .error "bulk edge endpoint was not created earlier in the chunk"

/-- Create an object within a transaction. -/
def createIn (db : Database) (stored : Stored) : Except String (Database × Nat) :=
  match env.refuses db stored with
  | some message => .error message
  | none => .ok (db ++ [stored], db.length)

/-- `commit_prepared`: one transaction for the writes among the items, all or none of them. -/
def commitPrepared :
    Database → StrMap Nat → List BulkChunkItem → Except String (Database × List CommittedItem)
  | db, _, [] => .ok (db, [])
  | db, chunkNodes, item :: rest => do
      match item with
      | .unchanged =>
          let (db, items) ← commitPrepared db chunkNodes rest
          return (db, .unchanged :: items)
      | .failed fault =>
          let (db, items) ← commitPrepared db chunkNodes rest
          return (db, .failed fault :: items)
      | .write (.node record seq) =>
          let (db, nodeId) ← createIn env db (preparedNode record seq)
          let (db, items) ← commitPrepared db (chunkNodes.insert record.id nodeId) rest
          return (db, .created (.node record nodeId) :: items)
      | .write (.edge record seq source target) =>
          let source ← resolveEndpoint chunkNodes source
          let target ← resolveEndpoint chunkNodes target
          let (db, edgeId) ← createIn env db (preparedEdge record source target seq)
          let (db, items) ← commitPrepared db chunkNodes rest
          return (db, .created (.edge record edgeId source target seq) :: items)
      | .write (.tombstone record seq) =>
          let (db, nodeId) ← createIn env db (preparedTombstone record seq)
          let (db, items) ← commitPrepared db chunkNodes rest
          return (db, .created (.tombstone record nodeId seq) :: items)

/-- An item of a transaction that was rolled back. -/
def rolledBack : BulkChunkItem → CommittedItem
  | .unchanged => .unchanged
  | .write _ => .rolledBack
  | .failed fault => .failed fault

/-- The bookkeeping of a created write. -/
def bookkeepCreated : CreatedWrite → EmbeddedAletheiaSink × Except AdapterError Unit
  | .node record nodeId => sink.bookkeepNodeWrite env record nodeId
  | .edge record edgeId source target seq => sink.bookkeepEdgeWrite env record edgeId source target seq
  | .tombstone record nodeId seq => sink.bookkeepTombstoneWrite env record nodeId seq

end Commit

/-! ## Runs -/

/-- A bulk write under way: the sink, the edge index of the call, the sink after each commit so far,
and the results so far. -/
structure BulkRun where
  sink : EmbeddedAletheiaSink
  edgeIndex : Option EdgeIndex := none
  trail : List EmbeddedAletheiaSink := []
  results : List (Except AdapterError WriteOutcome) := []

namespace BulkRun

variable (run : BulkRun)

/-- `note_bulk_edge_write`. -/
def noteBulkEdgeWrite (record : GraphRecord) : BulkRun :=
  match run.edgeIndex, run.sink.recordHandles[record.id]? with
  | some index, some (.edge edgeId) =>
      { run with edgeIndex := some (index.note record.id edgeId) }
  | _, _ => run

/-- Write a record by itself. -/
def writeSingle (record : GraphRecord) : BulkRun :=
  let (sink, result) := run.sink.writeAndVerify env record
  let written : BulkRun :=
    { run with
      sink := sink
      trail := run.trail ++ [sink]
      results := run.results ++ [result] }
  match result with
  | .ok .inserted => written.noteBulkEdgeWrite record
  | _ => written

/-- `per_record_chunk`. -/
def perRecordChunk (chunk : List GraphRecord) : BulkRun :=
  chunk.foldl (fun run record => run.writeSingle env record) run

/-- Verify a record of a chunk. -/
def verifyItem (record : GraphRecord) (outcome : WriteOutcome) : BulkRun :=
  { run with results := run.results ++ [(run.sink.verifyRecord env record).map fun _ => outcome] }

/-- Bookkeep and verify an item of a chunk. -/
def finishItem (record : GraphRecord) : CommittedItem → BulkRun
  | .failed fault => { run with results := run.results ++ [.error fault] }
  | .unchanged =>
      if run.sink.recordHandles.contains record.id then run.verifyItem env record .unchanged
      else { run with results := run.results ++ [.ok .unchanged] }
  | .rolledBack => run.writeSingle env record
  | .created write =>
      match run.sink.bookkeepCreated env write with
      | (sink, .ok ()) => ({ run with sink := sink } : BulkRun).verifyItem env record .inserted
      | (sink, .error fault) =>
          { run with
            sink := sink
            results := run.results ++ [.error fault] }

/-- The edges that a transaction created, in the edge index. -/
def noteCreated (items : List CommittedItem) : BulkRun :=
  { run with
    edgeIndex := run.edgeIndex.map fun index => items.foldl (fun index item =>
      match item with
      | .created (.edge record edgeId _ _ _) => index.note record.id edgeId
      | _ => index) index }

/-- Bookkeep and verify a chunk; its commit is in the trail once this is done. -/
def finishChunk (chunk : List GraphRecord) (items : List CommittedItem) : BulkRun :=
  let finished := (chunk.zip items).foldl (fun run entry => run.finishItem env entry.1 entry.2) run
  { finished with trail := finished.trail ++ [finished.sink] }

/-- `write_chunk_bulk_pass`, with the slot it splits the chunk at, if any. -/
def writeChunkBulkPass (chunk : List GraphRecord) : BulkRun × Option Nat :=
  match run.sink.activeDeletedIds env with
  | .error _ => (run.perRecordChunk env chunk, none)
  | .ok deleted =>
      let (sink, edgeIndex, classes) :=
        classifyChunk env deleted chunk [] ∅ run.edgeIndex run.sink
      let run : BulkRun := { run with sink := sink, edgeIndex := edgeIndex }
      match classes with
      | .perRecord => (run.perRecordChunk env chunk, none)
      | .splitAt slot => (run, some slot)
      | .items items =>
          match commitPrepared env sink.db ∅ items with
          | .error _ => (run.finishChunk env chunk (items.map rolledBack), none)
          | .ok (db, items) =>
              let run : BulkRun := { run with sink := { sink with db := db } }
              ((run.noteCreated items).finishChunk env chunk items, none)

end BulkRun

/-- The slot of a split is one of the chunk. -/
theorem classifyChunk_splitAt {deleted : StrSet} {chunk : List GraphRecord}
    {items : List BulkChunkItem} {nodeWrites : StrMap NodeRecord} {index : Option EdgeIndex}
    {slot : Nat}
    (split : (classifyChunk env deleted chunk items nodeWrites index sink).2.2 = .splitAt slot) :
    slot < items.length + chunk.length := by
  induction chunk generalizing items nodeWrites index sink with
  | nil => simp [classifyChunk] at split
  | cons record rest ih =>
      rw [List.length_cons]
      rw [classifyChunk] at split
      split at split
      · have later := ih _ split
        simp only [List.length_append, List.length_singleton] at later
        omega
      · cases split
      · cases split
        omega

namespace BulkRun

/-- A pass splits its chunk at one of its records. -/
theorem writeChunkBulkPass_slot {run : BulkRun} {chunk : List GraphRecord} {slot : Nat}
    (split : (run.writeChunkBulkPass env chunk).2 = some slot) : slot < chunk.length := by
  rw [writeChunkBulkPass] at split
  cases active : run.sink.activeDeletedIds env with
  | error fault => simp [active] at split
  | ok deleted =>
      simp only [active] at split
      cases classes :
          (classifyChunk env deleted chunk [] ∅ run.edgeIndex run.sink).2.2 with
      | perRecord => simp [classes] at split
      | items items =>
          simp only [classes] at split
          split at split <;> cases split
      | splitAt other =>
          simp only [classes, Option.some.injEq] at split
          simpa [split] using classifyChunk_splitAt env run.sink classes

/-- `write_chunk_bulk`: the records around a split go through bulk passes of their own. -/
def writeChunkBulk (run : BulkRun) (chunk : List GraphRecord) : BulkRun :=
  match pass : run.writeChunkBulkPass env chunk with
  | (run, none) => run
  | (run, some slot) =>
      have inside : slot < chunk.length := writeChunkBulkPass_slot env (congrArg Prod.snd pass)
      let run := writeChunkBulk run (chunk.take slot)
      let run := run.writeSingle env (chunk.get ⟨slot, inside⟩)
      writeChunkBulk run (chunk.drop (slot + 1))
termination_by chunk.length
decreasing_by
  · rw [List.length_take]
    omega
  · rw [List.length_drop]
    omega

/-- The loop of `write_records_bulk`, where `chunk` is the pending chunk: it is written when it is
full, and before a record that is written by itself. -/
def writeBulk (bulkBatchSize : Nat) :
    List (GraphRecord × Bool) → List GraphRecord → BulkRun → BulkRun
  | [], chunk, run => flush run chunk
  | (record, interferes) :: rest, chunk, run =>
      if interferes then
        writeBulk bulkBatchSize rest [] ((flush run chunk).writeSingle env record)
      else if chunk.length = bulkBatchSize then
        writeBulk bulkBatchSize rest [record] (flush run chunk)
      else writeBulk bulkBatchSize rest (chunk ++ [record]) run
where
  flush (run : BulkRun) : List GraphRecord → BulkRun
    | [] => run
    | chunk => run.writeChunkBulk env chunk

end BulkRun

/-- A record whose outcome can depend on another one of the call: its ID occurs again, or it is the
tombstone of a record of the call. -/
def interferes (records : List GraphRecord) (record : GraphRecord) : Bool :=
  1 < (records.map GraphRecord.id).count record.id ||
    match record with
    | .tombstone tombstone => (records.map GraphRecord.id).contains tombstone.deletedId
    | _ => false

/-- `DEFAULT_BULK_BATCH_SIZE`. -/
def defaultBulkBatchSize : Nat := 1000

/-- `write_records_bulk`. -/
def writeRecordsBulk (bulkEnabled : Bool) (bulkBatchSize : Nat) (records : List GraphRecord) :
    BulkRun :=
  if bulkEnabled = false ∨ records.length < 2 then
    ({ sink := sink } : BulkRun).perRecordChunk env records
  else
    BulkRun.writeBulk env bulkBatchSize
      (records.map fun record => (record, interferes records record)) [] { sink := sink }

/-! ## The trail -/

namespace BulkRun

variable {env : Aletheia} {start : EmbeddedAletheiaSink} {run : BulkRun}

/-- The trail ends with the sink. -/
def Settled (start : EmbeddedAletheiaSink) (run : BulkRun) : Prop :=
  run.trail.getLastD start = run.sink

/-- Noting an edge leaves sink and trail alone. -/
theorem Settled.noteBulkEdgeWrite (settled : Settled start run) (record : GraphRecord) :
    Settled start (run.noteBulkEdgeWrite record) := by
  rw [BulkRun.noteBulkEdgeWrite]
  split
  · exact settled
  · exact settled

/-- A record written by itself settles the trail. -/
theorem settled_writeSingle (record : GraphRecord) : Settled start (run.writeSingle env record) := by
  have written (sink : EmbeddedAletheiaSink) (result : Except AdapterError WriteOutcome) :
      Settled start { run with
        sink := sink
        trail := run.trail ++ [sink]
        results := run.results ++ [result] } := by
    rw [Settled, List.getLastD_concat]
  rw [writeSingle]
  dsimp only
  split
  · exact (written _ _).noteBulkEdgeWrite record
  · exact written _ _

/-- Records written one by one keep the trail settled. -/
theorem Settled.perRecordChunk (settled : Settled start run) (chunk : List GraphRecord) :
    Settled start (run.perRecordChunk env chunk) := by
  induction chunk generalizing run with
  | nil => exact settled
  | cons record rest ih => exact ih (settled_writeSingle record)

/-- The commit of a chunk settles the trail. -/
theorem settled_finishChunk (chunk : List GraphRecord) (items : List CommittedItem) :
    Settled start (run.finishChunk env chunk items) := by
  rw [finishChunk, Settled, List.getLastD_concat]

/-- A pass over a whole chunk keeps the trail settled. -/
theorem Settled.writeChunkBulkPass (settled : Settled start run) {chunk : List GraphRecord}
    (whole : (run.writeChunkBulkPass env chunk).2 = none) :
    Settled start (run.writeChunkBulkPass env chunk).1 := by
  rw [BulkRun.writeChunkBulkPass] at whole ⊢
  cases active : run.sink.activeDeletedIds env with
  | error fault => exact settled.perRecordChunk chunk
  | ok deleted =>
      simp only [active] at whole ⊢
      cases chunk with
      | nil => exact settled_finishChunk [] []
      | cons record rest =>
          split
          · exact (settled_writeSingle record).perRecordChunk rest
          · next slot found => simp [found] at whole
          · split
            · exact settled_finishChunk ..
            · exact settled_finishChunk ..

/-- So does a chunk that is split, by induction on its length. -/
theorem Settled.writeChunkBulk (settled : Settled start run) (chunk : List GraphRecord) :
    Settled start (run.writeChunkBulk env chunk) := by
  induction size : chunk.length using Nat.strong_induction_on generalizing chunk run with
  | _ size ih =>
      rw [BulkRun.writeChunkBulk]
      split
      · next passed pass =>
          have whole : (run.writeChunkBulkPass env chunk).2 = none := by rw [pass]
          have kept := settled.writeChunkBulkPass whole
          rwa [pass] at kept
      · next passed slot pass =>
          have inside : slot < chunk.length := writeChunkBulkPass_slot env (congrArg Prod.snd pass)
          refine ih _ ?_ (settled_writeSingle _) _ rfl
          rw [List.length_drop]
          omega

/-- Writing the pending chunk keeps the trail settled. -/
theorem Settled.flush (settled : Settled start run) (chunk : List GraphRecord) :
    Settled start (writeBulk.flush env run chunk) := by
  cases chunk with
  | nil => exact settled
  | cons record rest => exact settled.writeChunkBulk _

/-- The loop over the records keeps the trail settled. -/
theorem Settled.writeBulk (settled : Settled start run) (bulkBatchSize : Nat)
    (records : List (GraphRecord × Bool)) (chunk : List GraphRecord) :
    Settled start (BulkRun.writeBulk env bulkBatchSize records chunk run) := by
  induction records generalizing chunk run with
  | nil => exact settled.flush chunk
  | cons entry rest ih =>
      rw [BulkRun.writeBulk]
      split
      · exact ih (settled_writeSingle _) []
      · split
        · exact ih (settled.flush chunk) _
        · exact ih settled _

end BulkRun

/-- The last sink of the trail is the sink that a run ends in. -/
theorem writeRecordsBulk_settled (bulkEnabled : Bool) (bulkBatchSize : Nat)
    (records : List GraphRecord) :
    (sink.writeRecordsBulk env bulkEnabled bulkBatchSize records).Settled sink := by
  have start : ({ sink := sink } : BulkRun).Settled sink := rfl
  rw [writeRecordsBulk]
  split
  · exact start.perRecordChunk records
  · exact start.writeBulk _ _ _

end EmbeddedAletheiaSink

end Egregore
