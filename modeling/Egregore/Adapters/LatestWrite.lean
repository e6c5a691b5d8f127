import Egregore.Adapters.HistorySpec

/-!
# The current read and the last writes

`read_all_records` against the log of the writes. An edge write is skipped when any stored
version of its id matches it, and a tombstone is forgotten when its record id is used for
another target; `latestWriteWins_iff` says for which logs the read still gives, of each id, the
last write.
-/

namespace Egregore

open Base Database

namespace EmbeddedAletheiaSink

variable {env : Aletheia} {sink sink' : EmbeddedAletheiaSink} {log written : List GraphRecord}

section Guards

/-- The last event of the records is that of what is stored. -/
theorem lastEvent_map_record {p : GraphRecord → Bool} {db : Database} :
    lastEvent p (db.map Stored.record) =
      (lastEvent (fun stored => p stored.record) db).map Stored.record := by
  rw [lastEvent, lastEvent, List.filter_map, List.getLast?_map]
  rfl

/-- Without temporal metadata every node version is a plain one. -/
theorem lastEvent_plainNodeOf {db : Database}
    (plain : ∀ stored ∈ db, stored.record.temporal = none) (id : String) :
    lastEvent (Stored.plainNodeOf id) db =
      lastEvent (fun stored => stored.record.writesNode id) db := by
  rw [lastEvent, lastEvent]
  congr 1
  apply List.filter_congr
  intro stored member
  have untimed := plain stored member
  cases stored with
  | edge edge => rfl
  | node stored =>
      cases stored with
      | tombstone record seq => rfl
      | node record seq =>
          change record.temporal = none at untimed
          simp [Stored.plainNodeOf, Stored.record, StoredNode.record, GraphRecord.writesNode,
            untimed]

/-- Without temporal fields the latest node is the last one written. -/
theorem latestNode_eq_nonTemporal (coherent : Coherent env sink)
    (plain : ∀ stored ∈ sink.db, stored.record.temporal = none) (id : String) :
    sink.nodeLookup.latestNode id = lastIdx (Stored.plainNodeOf id) sink.db := by
  rw [← nonTemporal_eq coherent]
  obtain ⟨ids, described, same⟩ := coherent.lookup
  rw [described.latestNode_eq, described.nonTemporal]
  congr 2
  rw [eq_comm, List.filter_eq_self]
  rintro ⟨nodeId, key⟩ member
  obtain ⟨record, seq, found, -, read⟩ := (mem_candidatesOf same).mp member
  have untimed := plain _ (List.mem_of_getElem? (getNode_eq_some_iff.mp found))
  rw [isNonTemporal, decide_eq_true_eq, temporalKey_none_iff read]
  exact untimed

/-- A node write that is skipped is the same as the last stored version. -/
theorem lastEvent_of_skippedNode (coherent : Coherent env sink)
    (plain : ∀ stored ∈ sink.db, stored.record.temporal = none) {record : NodeRecord}
    (untimed : record.temporal = none)
    (skipped : sink.storedAndLive env (.node record) = .ok true) :
    ∃ stored, lastEvent (GraphRecord.writesNode record.id) (sink.db.map Stored.record) =
        some stored ∧ sameRecord stored (.node record) = true := by
  obtain ⟨found, same, read⟩ : ∃ found, sameRecord found (.node record) = true ∧
      sink.readBack env record.id = .ok (some found) := by
    rw [storedAndLive] at skipped
    cases state : sink.expectedRecordState env (.node record) with
    | error fault => simp [state] at skipped
    | ok answer =>
        cases answer with
        | mismatched => simp [state] at skipped
        | missing => simp [state] at skipped
        | matched =>
            simp only [expectedRecordState, untimed, compareLatestRecord, GraphRecord.id] at state
            split at state
            · cases state
            · cases state
            · next found read =>
                split at state
                · next same => exact ⟨found, same, read⟩
                · cases state
  rw [readBack, latestNode_eq_nonTemporal coherent plain] at read
  split at read
  · next nodeId last =>
      cases node : sink.readNodeRecord env record.id nodeId with
      | error fault => simp [node, Except.map] at read
      | ok stored =>
          obtain ⟨stored, seq, at_node, named, rfl⟩ := record_of_readNodeRecord node
          simp only [node, Except.map, Except.ok.injEq, Option.some.injEq] at read
          subst read
          refine ⟨.node stored, ?_, same⟩
          rw [lastEvent_map_record, ← lastEvent_plainNodeOf plain,
            lastEvent_eq_some_iff.mpr ⟨nodeId, last, getNode_eq_some_iff.mp at_node⟩]
          rfl
  · -- What is read back for an id without a node is not a node.
    have otherKind : ∀ {other : GraphRecord}, sameRecord other (.node record) = true →
        ∃ node, other = .node node := by
      intro other same
      rw [sameRecord, decide_eq_true_eq] at same
      cases other with
      | node node => exact ⟨node, rfl⟩
      | edge edge => simp [GraphRecord.withClearedProducerStartedAt] at same
      | tombstone tombstone => simp [GraphRecord.withClearedProducerStartedAt] at same
    obtain ⟨node, rfl⟩ := otherKind same
    split at read
    · next nodeId _ =>
        cases held : sink.readTombstoneRecord env record.id nodeId with
        | error fault => simp [held, Except.map] at read
        | ok stored =>
            obtain ⟨_, _, -, -, rfl⟩ := record_of_readTombstoneRecord held
            simp [held, Except.map] at read
    · split at read
      · cases read
      · cases read
      · next candidate _ =>
          cases held : sink.readEdgeRecord env record.id candidate.storageId with
          | error fault => simp [held, Except.map] at read
          | ok stored =>
              obtain ⟨_, -, -, rfl⟩ := record_of_readEdgeRecord held
              simp [held, Except.map] at read

/-- A stored edge of the id is the same as the record. -/
def HoldsEdge (db : Database) (record : EdgeRecord) : Prop :=
  ∃ edgeId edge, db.getEdge edgeId = some edge ∧ edge.record.id = record.id ∧
    sameRecord (.edge edge.record) (.edge record) = true

/-- The comparison matches when an edge of the ID with the same record was met. -/
theorem compareEdges_spec (known : sink.db.Known) {record : EdgeRecord} {scan : List Nat}
    (met : ∀ edgeId ∈ scan, ∃ edge, sink.db.getEdge edgeId = some edge) (sawSameId : Bool) :
    ∃ state, sink.compareEdges env record.id (.edge record) scan sawSameId = .ok state ∧
      (state = .matched ↔ ∃ edgeId ∈ scan, ∃ edge, sink.db.getEdge edgeId = some edge ∧
        edge.record.id = record.id ∧ sameRecord (.edge edge.record) (.edge record) = true) := by
  induction scan generalizing sawSameId with
  | nil => cases sawSameId <;> exact ⟨_, rfl, by simp⟩
  | cons edgeId rest ih =>
      obtain ⟨edge, found⟩ := met edgeId List.mem_cons_self
      have more := fun saw => ih (fun other member => met other (List.mem_cons_of_mem _ member)) saw
      have first : (∃ other ∈ edgeId :: rest, ∃ edge, sink.db.getEdge other = some edge ∧
          edge.record.id = record.id ∧ sameRecord (.edge edge.record) (.edge record) = true) ↔
          (edge.record.id = record.id ∧
            sameRecord (.edge edge.record) (.edge record) = true) ∨
          ∃ other ∈ rest, ∃ edge, sink.db.getEdge other = some edge ∧
            edge.record.id = record.id ∧ sameRecord (.edge edge.record) (.edge record) = true := by
        simp only [List.mem_cons, or_and_right, exists_or, exists_eq_left, found,
          Option.some.injEq, exists_eq_left']
      rw [compareEdges, found]
      by_cases named : edge.record.id = record.id
      · have read : sink.readEdgeRecord env record.id edgeId = .ok (.edge edge.record) := by
          rw [← named]
          exact readEdgeRecord_eq_ok known found
        rw [first]
        simp only [named, if_true, read, true_and]
        cases same : sameRecord (.edge edge.record) (.edge record) with
        | true => exact ⟨.matched, by simp, by simp⟩
        | false => simpa using more true
      · rw [first]
        simpa [named] using more sawSameId

/-- An edge write is skipped exactly when some stored version matches it and its id is not
retracted. -/
theorem storedAndLive_edge (coherent : Coherent env sink) (known : sink.db.Known)
    (record : EdgeRecord) : ∃ skipped, sink.storedAndLive env (.edge record) = .ok skipped ∧
      (skipped = true ↔ HoldsEdge sink.db record ∧ ¬ sink.db.Suppressed record.id) := by
  obtain ⟨active, activeEq, retracted⟩ := activeDeletedIds_spec coherent
  have scanned := mem_scan env fun id edge found => (coherent.ends id edge found).1
  obtain ⟨state, compared, matched⟩ := @compareEdges_spec env sink known record
    (sink.edgeScan env) (fun edgeId member => (scanned edgeId).mp member) false
  have holds : state = .matched ↔ HoldsEdge sink.db record := by
    rw [matched]
    constructor
    · rintro ⟨edgeId, -, edge, found⟩
      exact ⟨edgeId, edge, found⟩
    · rintro ⟨edgeId, edge, found, rest⟩
      exact ⟨edgeId, (scanned edgeId).mpr ⟨edge, found⟩, edge, found, rest⟩
  rw [← holds, ← retracted, ← Std.ExtTreeSet.contains_iff_mem]
  cases state with
  | matched =>
      refine ⟨!active.contains record.id, ?_, by
        rw [Bool.not_eq_true', eq_self, true_and, Bool.not_eq_true]⟩
      simp [storedAndLive, expectedRecordState, compareEdgeRecord, compared, activeEq]
  | mismatched =>
      refine ⟨false, ?_, by simp⟩
      simp [storedAndLive, expectedRecordState, compareEdgeRecord, compared]
  | missing =>
      refine ⟨false, ?_, by simp⟩
      simp [storedAndLive, expectedRecordState, compareEdgeRecord, compared]

end Guards

section Log

/-- An edge write that the sink skips: the same edge was passed before under its id, and no
tombstone of the id is in force. -/
def RepeatsEdge (before : List GraphRecord) (edge : EdgeRecord) : Prop :=
  (∃ other, .edge other ∈ before ∧ other.id = edge.id ∧
    sameRecord (.edge other) (.edge edge) = true) ∧
  ¬ ∃ tombstoneId, RetractedBy before tombstoneId edge.id

/-- The last edge write of its id that is not skipped. -/
def LastStoredEdge (log : List GraphRecord) (edge : EdgeRecord) : Prop :=
  ∃ before after, log = before ++ .edge edge :: after ∧ ¬ RepeatsEdge before edge ∧
    ∀ earlier other later, after = earlier ++ .edge other :: later → other.id = edge.id →
      RepeatsEdge (before ++ .edge edge :: earlier) other

/-- At first no edge is stored. -/
theorem not_lastStoredEdge_nil {edge : EdgeRecord} : ¬ LastStoredEdge [] edge := by
  rintro ⟨before, after, split, -⟩
  simp at split

/-- A new edge is stored unless it repeats one. -/
theorem lastStoredEdge_append_singleton {last : GraphRecord} {edge : EdgeRecord} :
    LastStoredEdge (log ++ [last]) edge ↔
      (last = .edge edge ∧ ¬ RepeatsEdge log edge) ∨
        LastStoredEdge log edge ∧
          ∀ other, last = .edge other → other.id = edge.id → RepeatsEdge log other := by
  constructor
  · rintro ⟨before, after, split, stored, repeats⟩
    rcases List.eq_nil_or_concat' after with rfl | ⟨rest, final, rfl⟩
    · obtain ⟨rfl, ends⟩ := List.append_inj' split rfl
      rw [List.cons.injEq] at ends
      exact Or.inl ⟨ends.1, stored⟩
    · rw [← List.cons_append, ← List.append_assoc] at split
      obtain ⟨rfl, ends⟩ := List.append_inj' split rfl
      obtain ⟨rfl, -⟩ := List.cons.inj ends
      refine Or.inr ⟨⟨before, rest, rfl, stored, fun earlier other later inside => ?_⟩, ?_⟩
      · exact repeats earlier other (later ++ [last]) (by simp [inside])
      · rintro other rfl named
        exact repeats rest other [] rfl named
  · rintro (⟨rfl, stored⟩ | ⟨⟨before, after, rfl, stored, repeats⟩, atLast⟩)
    · exact ⟨log, [], rfl, stored, fun earlier other later inside => by simp at inside⟩
    · refine ⟨before, after ++ [last], by simp, stored, fun earlier other later inside named => ?_⟩
      rcases List.eq_nil_or_concat' later with rfl | ⟨rest, final, rfl⟩
      · obtain ⟨rfl, ends⟩ := List.append_inj' inside rfl
        obtain ⟨rfl, -⟩ := List.cons.inj ends
        exact atLast other rfl named
      · rw [← List.cons_append, ← List.append_assoc] at inside
        obtain ⟨rfl, -⟩ := List.append_inj' inside rfl
        exact repeats earlier other rest rfl named

/-- The entry of an edge record is an edge. -/
theorem edge_of_record {stored : Stored} {record : EdgeRecord}
    (same : stored.record = .edge record) : ∃ edge, stored = .edge edge ∧ edge.record = record := by
  cases stored with
  | edge edge =>
      rw [Stored.record, GraphRecord.edge.injEq] at same
      exact ⟨edge, rfl, same⟩
  | node stored => cases stored <;> simp [Stored.record, StoredNode.record] at same

/-- The store holds an edge when one like it was written. -/
theorem WriteRun.holdsEdge_written (run : WriteRun env log written sink)
    (plain : ∀ record ∈ log, record.temporal = none) {record : EdgeRecord} :
    HoldsEdge sink.db record ↔ ∃ other, .edge other ∈ written ∧ other.id = record.id ∧
      sameRecord (.edge other) (.edge record) = true := by
  rw [← run.records_plain plain]
  constructor
  · rintro ⟨edgeId, edge, found, rest⟩
    refine ⟨edge.record, List.mem_map.mpr ⟨.edge edge, ?_, rfl⟩, rest⟩
    exact List.mem_of_getElem? (getEdge_eq_some_iff.mp found)
  · rintro ⟨other, member, rest⟩
    obtain ⟨stored, inside, same⟩ := List.mem_map.mp member
    obtain ⟨edge, rfl, rfl⟩ := edge_of_record same
    obtain ⟨edgeId, found⟩ := List.mem_iff_getElem?.mp inside
    exact ⟨edgeId, edge, getEdge_eq_some_iff.mpr found, rest⟩

/-- Every edge that is passed is stored, or the same as one that is. -/
theorem WriteRun.exists_sameEdge (run : WriteRun env log written sink)
    (plain : ∀ record ∈ log, record.temporal = none) {edge : EdgeRecord}
    (member : .edge edge ∈ log) : ∃ other, .edge other ∈ written ∧ other.id = edge.id ∧
      sameRecord (.edge other) (.edge edge) = true := by
  induction run with
  | start => cases member
  | @inserted log written sink sink' record before accepted ih =>
      rcases List.mem_append.mp member with old | new
      · obtain ⟨other, inside, rest⟩ := ih (fun record inside => plain record (by simp [inside])) old
        exact ⟨other, List.mem_append_left _ inside, rest⟩
      · refine ⟨edge, List.mem_append_right _ new, rfl, ?_⟩
        simp [sameRecord]
  | @unchanged log written sink sink' record before accepted ih =>
      have untimed : ∀ record ∈ log, record.temporal = none :=
        fun record inside => plain record (by simp [inside])
      rcases List.mem_append.mp member with old | new
      · exact ih untimed old
      · obtain rfl := List.mem_singleton.mp new
        cases accepts_of_writeRecord accepted with
        | unchanged known stored =>
            obtain ⟨skipped, read, skipped_iff⟩ :=
              storedAndLive_edge before.coherent before.reachable.known edge
            change sink.storedAndLive env (.edge edge) = .ok true at stored
            rw [stored, Except.ok.injEq] at read
            exact (before.holdsEdge_written untimed).mp (skipped_iff.mp read.symm).1
  | reopened _ _ ih => exact ih plain member

/-- The edges of an id in the store are the same as those passed. -/
theorem WriteRun.holdsEdge_iff (run : WriteRun env log written sink)
    (plain : ∀ record ∈ log, record.temporal = none) {record : EdgeRecord} :
    HoldsEdge sink.db record ↔ ∃ other, .edge other ∈ log ∧ other.id = record.id ∧
      sameRecord (.edge other) (.edge record) = true := by
  rw [run.holdsEdge_written plain]
  constructor
  · rintro ⟨other, member, rest⟩
    exact ⟨other, run.sublist.subset member, rest⟩
  · rintro ⟨other, member, named, same⟩
    obtain ⟨kept, inside, named', same'⟩ := run.exists_sameEdge plain member
    refine ⟨kept, inside, named'.trans named, ?_⟩
    rw [sameRecord, decide_eq_true_eq] at same same' ⊢
    exact same'.trans same

/-- It suppresses what the log retracted. -/
theorem WriteRun.suppressed_iff (run : WriteRun env log written sink) (id : String) :
    sink.db.Suppressed id ↔ ∃ tombstoneId, RetractedBy log tombstoneId id :=
  suppressed_iff_exists.trans (exists_congr fun _ => suppressedBy_iff run _ _)

/-- An edge write is skipped exactly when it repeats the log. -/
theorem WriteRun.storedAndLive_edge (run : WriteRun env log written sink)
    (plain : ∀ record ∈ log, record.temporal = none) {edge : EdgeRecord} {skipped : Bool}
    (answer : sink.storedAndLive env (.edge edge) = .ok skipped) :
    skipped = true ↔ RepeatsEdge log edge := by
  obtain ⟨skipped', read, skipped_iff⟩ :=
    EmbeddedAletheiaSink.storedAndLive_edge run.coherent run.reachable.known edge
  rw [answer, Except.ok.injEq] at read
  rw [read, skipped_iff, run.holdsEdge_iff plain, run.suppressed_iff, RepeatsEdge]

/-- A new event is the last one if it is of the kind. -/
theorem lastEvent_append_singleton {p : GraphRecord → Bool} {last : GraphRecord} :
    lastEvent p (log ++ [last]) = if p last then some last else lastEvent p log := by
  rw [lastEvent, List.filter_append]
  cases holds : p last <;> simp [holds, lastEvent]

/-- The last edge that a run has stored for an id. -/
theorem WriteRun.lastEdge_iff (run : WriteRun env log written sink)
    (plain : ∀ record ∈ log, record.temporal = none) {edge : EdgeRecord} :
    lastEvent (GraphRecord.writesEdge edge.id) written = some (.edge edge) ↔
      LastStoredEdge log edge := by
  induction run with
  | start => exact iff_of_false (by simp [lastEvent]) not_lastStoredEdge_nil
  | @inserted log written sink sink' record before accepted ih =>
      have untimed : ∀ record ∈ log, record.temporal = none :=
        fun record inside => plain record (by simp [inside])
      rw [lastEvent_append_singleton, lastStoredEdge_append_singleton, ← ih untimed]
      cases record with
      | node node => simp [GraphRecord.writesEdge]
      | tombstone tombstone => simp [GraphRecord.writesEdge]
      | edge other =>
          cases accepts_of_writeRecord accepted with
          | inserted known notStored creates =>
              have fresh : ¬ RepeatsEdge log other := by
                rw [← before.storedAndLive_edge untimed notStored]
                exact Bool.false_ne_true
              by_cases named : other.id = edge.id
              · simp only [GraphRecord.writesEdge, named, decide_true, if_true, Option.some.injEq,
                  GraphRecord.edge.injEq]
                constructor
                · rintro rfl
                  exact Or.inl ⟨rfl, fresh⟩
                · rintro (⟨same, -⟩ | ⟨-, repeats⟩)
                  · exact same
                  · exact absurd (repeats other rfl named) fresh
              · have differs : other ≠ edge := fun same => named (same ▸ rfl)
                simp [GraphRecord.writesEdge, named, differs]
  | @unchanged log written sink sink' record before accepted ih =>
      have untimed : ∀ record ∈ log, record.temporal = none :=
        fun record inside => plain record (by simp [inside])
      rw [lastStoredEdge_append_singleton, ih untimed]
      cases accepts_of_writeRecord accepted with
      | unchanged known stored =>
          have repeats : ∀ other, record = .edge other → RepeatsEdge log other := by
            rintro other rfl
            exact (before.storedAndLive_edge untimed stored).mp rfl
          constructor
          · exact fun last => Or.inr ⟨last, fun other same _ => repeats other same⟩
          · rintro (⟨same, fresh⟩ | ⟨last, -⟩)
            · exact absurd (repeats edge same) fresh
            · exact last
  | reopened _ _ ih => exact ih plain

/-- The last node that a run has stored for an id is the same as the last one passed. -/
theorem WriteRun.lastNode_same (run : WriteRun env log written sink)
    (plain : ∀ record ∈ log, record.temporal = none) (id : String) :
    (lastEvent (GraphRecord.writesNode id) written).map
        GraphRecord.withClearedProducerStartedAt =
      (lastEvent (GraphRecord.writesNode id) log).map
        GraphRecord.withClearedProducerStartedAt := by
  induction run with
  | start => rfl
  | @inserted log written sink sink' record before accepted ih =>
      rw [lastEvent_append_singleton, lastEvent_append_singleton]
      split
      · rfl
      · exact ih fun record inside => plain record (by simp [inside])
  | @unchanged log written sink sink' record before accepted ih =>
      have untimed : ∀ record ∈ log, record.temporal = none :=
        fun record inside => plain record (by simp [inside])
      rw [lastEvent_append_singleton]
      split
      · next writes =>
          cases record with
          | edge edge => cases writes
          | tombstone tombstone => cases writes
          | node node =>
              obtain rfl : node.id = id := by simpa [GraphRecord.writesNode] using writes
              cases accepts_of_writeRecord accepted with
              | unchanged known stored =>
                  have records := before.records_plain untimed
                  obtain ⟨last, found, same⟩ := lastEvent_of_skippedNode before.coherent
                    (fun stored member => untimed _ (before.sublist.subset
                      (records ▸ List.mem_map_of_mem member)))
                    (plain (.node node) (by simp)) stored
                  rw [sameRecord, decide_eq_true_eq] at same
                  rw [← records, found, Option.map_some, Option.map_some, same]
      · exact ih untimed
  | reopened _ _ ih => exact ih plain

end Log

section Read

/-- A list with one record of each id has of an id the record that it holds. -/
theorem filter_eq_toList {records : List GraphRecord} {p : GraphRecord → Bool}
    {held : Option GraphRecord} (distinct : (records.map GraphRecord.id).Nodup)
    (holds : ∀ record, held = some record → p record = true)
    (members : ∀ record, p record = true → (record ∈ records ↔ held = some record)) :
    records.filter p = held.toList := by
  have same : ∀ record, record ∈ records.filter p ↔ record ∈ held.toList := by
    intro record
    rw [List.mem_filter, Option.mem_toList]
    constructor
    · rintro ⟨member, matched⟩
      exact (members record matched).mp member
    · intro found
      exact ⟨(members record (holds record found)).mpr found, holds record found⟩
  have nodup : (records.filter p).Nodup := (List.Nodup.of_map _ distinct).filter _
  cases held with
  | none =>
      rw [Option.toList_none, List.eq_nil_iff_forall_not_mem]
      exact fun record member => List.not_mem_nil ((same record).mp member)
  | some record =>
      rw [Option.toList_some, ← List.perm_singleton]
      exact (List.perm_ext_iff_of_nodup nodup (List.nodup_singleton record)).mpr same

/-- The nodes and edges of the current read, id by id. -/
theorem readAllRecords_of_id (run : WriteRun env log written sink)
    (plain : ∀ record ∈ log, record.temporal = none)
    (noProjects : ∀ record ∈ log, isProjectId record.id = false) :
    ∃ slice, sink.readAllRecords env = .ok slice ∧ ∀ id,
      (sink.db.Suppressed id → slice.filter (GraphRecord.writesNode id) = [] ∧
        slice.filter (GraphRecord.writesEdge id) = []) ∧
      (¬ sink.db.Suppressed id →
        slice.filter (GraphRecord.writesNode id) =
          (lastEvent (GraphRecord.writesNode id) written).toList ∧
        slice.filter (GraphRecord.writesEdge id) =
          (lastEvent (GraphRecord.writesEdge id) written).toList) := by
  have ordinary := run.ordinary plain noProjects
  have records := run.records_plain plain
  obtain ⟨segments, current, parts⟩ := readAllRecords_eq run.coherent run.reachable.known
  have noProjectNodes := parts.projects_eq_nil ordinary
  have noSnapshots := parts.snapshots_eq_nil run.coherent ordinary
  -- Only the node part has nodes, and only the edge part has edges.
  have onlyNodes : ∀ id, segments.slice.filter (GraphRecord.writesNode id) =
      segments.nodes.filter (GraphRecord.writesNode id) := by
    intro id
    have tombstones : segments.tombstones.filter (GraphRecord.writesNode id) = [] := by
      rw [List.filter_eq_nil_iff]
      intro record member
      obtain ⟨_, tombstone, _, -, -, -, rfl⟩ := (parts.tombstones record).mp member
      exact Bool.false_ne_true
    have edges : segments.edges.filter (GraphRecord.writesNode id) = [] := by
      rw [List.filter_eq_nil_iff]
      intro record member
      obtain ⟨_, edge, -, -, -, rfl⟩ := (parts.edges record).mp member
      exact Bool.false_ne_true
    simp [Segments.slice, noProjectNodes, noSnapshots, tombstones, edges]
  have onlyEdges : ∀ id, segments.slice.filter (GraphRecord.writesEdge id) =
      segments.edges.filter (GraphRecord.writesEdge id) := by
    intro id
    have tombstones : segments.tombstones.filter (GraphRecord.writesEdge id) = [] := by
      rw [List.filter_eq_nil_iff]
      intro record member
      obtain ⟨_, tombstone, _, -, -, -, rfl⟩ := (parts.tombstones record).mp member
      exact Bool.false_ne_true
    have nodes : segments.nodes.filter (GraphRecord.writesEdge id) = [] := by
      rw [List.filter_eq_nil_iff]
      intro record member
      obtain ⟨_, node, _, -, -, -, -, rfl⟩ := (parts.nodes record).mp member
      exact Bool.false_ne_true
    simp [Segments.slice, noProjectNodes, noSnapshots, tombstones, nodes]
  refine ⟨_, current, fun id => ⟨fun suppressed => ?_, fun free => ?_⟩⟩
  · rw [onlyNodes, onlyEdges, List.filter_eq_nil_iff, List.filter_eq_nil_iff]
    constructor
    · intro record member writes
      obtain ⟨_, node, _, -, -, -, live, rfl⟩ := (parts.nodes record).mp member
      obtain rfl : node.id = id := by simpa [GraphRecord.writesNode] using writes
      exact live suppressed
    · intro record member writes
      obtain ⟨_, edge, -, -, live, rfl⟩ := (parts.edges record).mp member
      obtain rfl : edge.record.id = id := by simpa [GraphRecord.writesEdge] using writes
      exact live suppressed
  · rw [onlyNodes, onlyEdges, ← records, lastEvent_map_record, lastEvent_map_record,
      ← lastEvent_plainNodeOf fun stored member => (ordinary stored member).1]
    constructor
    · refine filter_eq_toList parts.nodesDistinct ?_ fun record writes => ?_
      · intro record found
        obtain ⟨stored, last, rfl⟩ := Option.map_eq_some_iff.mp found
        rw [lastEvent_plainNodeOf fun stored member => (ordinary stored member).1] at last
        exact (mem_of_lastEvent last).2
      · rw [parts.nodes, Option.map_eq_some_iff]
        constructor
        · rintro ⟨nodeId, node, seq, found, last, -, -, rfl⟩
          obtain rfl : node.id = id := by simpa [GraphRecord.writesNode] using writes
          exact ⟨_, lastEvent_eq_some_iff.mpr ⟨nodeId, last, getNode_eq_some_iff.mp found⟩, rfl⟩
        · rintro ⟨stored, last, rfl⟩
          obtain ⟨nodeId, isLast, found⟩ := lastEvent_eq_some_iff.mp last
          obtain ⟨node, seq, at_node, rfl, -⟩ := plainNodeOf_iff.mp
            ⟨stored, found, (mem_of_lastEvent last).2⟩
          rw [getNode_eq_some_iff.mp at_node, Option.some.injEq] at found
          subst found
          exact ⟨nodeId, node, seq, at_node, isLast, (ordinary.node at_node).2, free, rfl⟩
    · refine filter_eq_toList parts.edgesDistinct ?_ fun record writes => ?_
      · intro record found
        obtain ⟨stored, last, rfl⟩ := Option.map_eq_some_iff.mp found
        exact (mem_of_lastEvent last).2
      · rw [parts.edges, Option.map_eq_some_iff]
        have edgeOf_eq : Stored.edgeOf id = fun stored => stored.record.writesEdge id := by
          funext stored
          cases stored with
          | edge edge => rfl
          | node stored => cases stored <;> rfl
        rw [← edgeOf_eq]
        constructor
        · rintro ⟨edgeId, edge, found, last, -, rfl⟩
          obtain rfl : edge.record.id = id := by simpa [GraphRecord.writesEdge] using writes
          exact ⟨_, lastEvent_eq_some_iff.mpr ⟨edgeId, last, getEdge_eq_some_iff.mp found⟩, rfl⟩
        · rintro ⟨stored, last, rfl⟩
          obtain ⟨edgeId, isLast, found⟩ := lastEvent_eq_some_iff.mp last
          cases stored with
          | node stored => cases stored <;> cases writes
          | edge edge =>
              obtain rfl : edge.record.id = id := by
                simpa [Stored.record, GraphRecord.writesEdge] using writes
              exact ⟨edgeId, edge, getEdge_eq_some_iff.mpr found, isLast, free, rfl⟩

end Read

end EmbeddedAletheiaSink

/-- The slice has, up to producer start times, the last node write and the last edge write of
each id that does not end in a tombstone, and nothing of one that does. -/
structure LatestWriteWins (log slice : List GraphRecord) : Prop where
  nodes : ∀ id, (slice.filter (GraphRecord.writesNode id)).map
      GraphRecord.withClearedProducerStartedAt =
    if unanswered (GraphRecord.deletes id) (GraphRecord.writes id) log then []
    else ((lastEvent (GraphRecord.writesNode id) log).map
      GraphRecord.withClearedProducerStartedAt).toList
  edges : ∀ id, (slice.filter (GraphRecord.writesEdge id)).map
      GraphRecord.withClearedProducerStartedAt =
    if unanswered (GraphRecord.deletes id) (GraphRecord.writes id) log then []
    else ((lastEvent (GraphRecord.writesEdge id) log).map
      GraphRecord.withClearedProducerStartedAt).toList

namespace EmbeddedAletheiaSink

variable {env : Aletheia} {sink : EmbeddedAletheiaSink} {log written : List GraphRecord}

/-- The last writes are stored: a written id that ends in a tombstone has one whose record id is
not used for another id, and of an id that does not, the last edge write that is not skipped is
the same as the last one. -/
structure StoresLastWrites (log : List GraphRecord) : Prop where
  tombstones : ∀ id, EndsInTombstone log id → (∃ record ∈ log, record.writes id = true) →
    ∃ tombstoneId, RetractedBy log tombstoneId id
  edges : ∀ edge last, LastStoredEdge log edge → ¬ EndsInTombstone log edge.id →
    lastEvent (GraphRecord.writesEdge edge.id) log = some last →
    sameRecord (.edge edge) last = true

/-- There is a last event when there is one. -/
theorem lastEvent_isSome_iff {p : GraphRecord → Bool} {records : List GraphRecord} :
    (lastEvent p records).isSome = true ↔ ∃ record ∈ records, p record = true := by
  rw [lastEvent, Option.isSome_iff_ne_none, Ne, List.getLast?_eq_none_iff,
    List.filter_eq_nil_iff]
  simp only [not_forall, not_not, exists_prop]

/-- The current read of a run succeeds, and is latest-write-wins exactly when the log stores its
last writes. -/
theorem latestWriteWins_iff (run : WriteRun env log written sink)
    (plain : ∀ record ∈ log, record.temporal = none)
    (noProjects : ∀ record ∈ log, isProjectId record.id = false) :
    ∃ slice, sink.readAllRecords env = .ok slice ∧
      (LatestWriteWins log slice ↔ StoresLastWrites log) := by
  obtain ⟨slice, read, ofId⟩ := readAllRecords_of_id run plain noProjects
  refine ⟨slice, read, ?_⟩
  have nodesSame := run.lastNode_same plain
  have nonempty : ∀ {p : GraphRecord → Bool} {record : GraphRecord}, record ∈ written →
      p record = true → (lastEvent p written).toList ≠ [] := by
    intro p record member holds empty
    have some_ := lastEvent_isSome_iff.mpr ⟨record, member, holds⟩
    cases found : lastEvent p written <;> simp_all
  constructor
  · intro wins
    refine ⟨fun id ends written_ => ?_, fun edge last stored open_ isLast => ?_⟩
    · rw [← run.suppressed_iff]
      by_contra free
      obtain ⟨nodes, edges⟩ := (ofId id).2 free
      obtain ⟨record, member, writes⟩ := written_
      have ends' : unanswered (GraphRecord.deletes id) (GraphRecord.writes id) log = true := ends
      rcases GraphRecord.writes_eq_true.mp writes with isNode | isEdge
      · have shown := wins.nodes id
        rw [if_pos ends', List.map_eq_nil_iff, nodes] at shown
        have none_ : lastEvent (GraphRecord.writesNode id) written = none := by
          cases found : lastEvent (GraphRecord.writesNode id) written <;> simp_all
        have same := nodesSame id
        rw [none_, Option.map_none, eq_comm, Option.map_eq_none_iff] at same
        have some_ := lastEvent_isSome_iff.mpr ⟨record, member, isNode⟩
        rw [same] at some_
        cases some_
      · have shown := wins.edges id
        rw [if_pos ends', List.map_eq_nil_iff, edges] at shown
        cases record with
        | node node => cases isEdge
        | tombstone tombstone => cases isEdge
        | edge edge =>
            obtain rfl : edge.id = id := by simpa [GraphRecord.writesEdge] using isEdge
            obtain ⟨other, inside, named, -⟩ := run.exists_sameEdge plain member
            exact nonempty inside (by simp [GraphRecord.writesEdge, named]) shown
    · have free : ¬ sink.db.Suppressed edge.id := by
        rw [run.suppressed_iff]
        rintro ⟨tombstoneId, retracted⟩
        exact open_ (endsInTombstone_of_retractedBy plain retracted)
      have open' : ¬ unanswered (GraphRecord.deletes edge.id) (GraphRecord.writes edge.id) log =
        true := open_
      have shown := wins.edges edge.id
      rw [((ofId edge.id).2 free).2, (run.lastEdge_iff plain).mpr stored, isLast,
        if_neg open'] at shown
      simpa [sameRecord] using shown
  · intro stores
    have retracted_iff : ∀ id, (∃ record ∈ log, record.writes id = true) →
        (sink.db.Suppressed id ↔ EndsInTombstone log id) := by
      intro id written_
      rw [run.suppressed_iff]
      refine ⟨?_, fun ends => stores.tombstones id ends written_⟩
      rintro ⟨_, retracted⟩
      exact endsInTombstone_of_retractedBy plain retracted
    -- An id that was never written has no record, suppressed or not.
    have unwritten : ∀ {p : GraphRecord → Bool} {id : String},
        (∀ record, p record = true → record.writes id = true) →
        (¬ ∃ record ∈ log, record.writes id = true) →
        lastEvent p log = none ∧ lastEvent p written = none := by
      intro p id writes silent
      constructor
      · by_contra some_
        obtain ⟨record, member, holds⟩ :=
          lastEvent_isSome_iff.mp (Option.isSome_iff_ne_none.mpr some_)
        exact silent ⟨record, member, writes record holds⟩
      · by_contra some_
        obtain ⟨record, member, holds⟩ :=
          lastEvent_isSome_iff.mp (Option.isSome_iff_ne_none.mpr some_)
        exact silent ⟨record, run.sublist.subset member, writes record holds⟩
    have ofIds : ∀ {p : String → GraphRecord → Bool},
        (∀ id record, p id record = true → record.writes id = true) →
        (∀ id, (sink.db.Suppressed id → slice.filter (p id) = []) ∧
          (¬ sink.db.Suppressed id → slice.filter (p id) = (lastEvent (p id) written).toList)) →
        (∀ id, ¬ EndsInTombstone log id →
          (lastEvent (p id) written).map GraphRecord.withClearedProducerStartedAt =
            (lastEvent (p id) log).map GraphRecord.withClearedProducerStartedAt) →
        ∀ id, (slice.filter (p id)).map GraphRecord.withClearedProducerStartedAt =
          if unanswered (GraphRecord.deletes id) (GraphRecord.writes id) log then []
          else ((lastEvent (p id) log).map GraphRecord.withClearedProducerStartedAt).toList := by
      intro p writes shows same id
      by_cases any : ∃ record ∈ log, record.writes id = true
      · split
        · next ends =>
            rw [(shows id).1 ((retracted_iff id any).mpr ends), List.map_nil]
        · next open_ =>
            rw [(shows id).2 fun suppressed => open_ ((retracted_iff id any).mp suppressed),
              ← same id open_]
            cases lastEvent (p id) written <;> rfl
      · obtain ⟨noLog, noWritten⟩ := unwritten (writes id) any
        have empty : slice.filter (p id) = [] := by
          by_cases suppressed : sink.db.Suppressed id
          · exact (shows id).1 suppressed
          · rw [(shows id).2 suppressed, noWritten]
            rfl
        rw [empty, noLog]
        split <;> rfl
    refine ⟨ofIds (fun id record isNode => GraphRecord.writes_eq_true.mpr (Or.inl isNode))
      (fun id => ⟨fun held => ((ofId id).1 held).1, fun free => ((ofId id).2 free).1⟩)
      fun id _ => nodesSame id,
      ofIds (fun id record isEdge => GraphRecord.writes_eq_true.mpr (Or.inr isEdge))
      (fun id => ⟨fun held => ((ofId id).1 held).2, fun free => ((ofId id).2 free).2⟩)
      fun id open_ => ?_⟩
    cases found : lastEvent (GraphRecord.writesEdge id) written with
    | none =>
        -- No edge of the id is stored, so none was passed.
        cases passed : lastEvent (GraphRecord.writesEdge id) log with
        | none => rfl
        | some record =>
            obtain ⟨member, isEdge⟩ := mem_of_lastEvent passed
            cases record with
            | node node => cases isEdge
            | tombstone tombstone => cases isEdge
            | edge edge =>
                obtain rfl : edge.id = id := by simpa [GraphRecord.writesEdge] using isEdge
                obtain ⟨other, inside, named, -⟩ := run.exists_sameEdge plain member
                have some_ := lastEvent_isSome_iff.mpr
                  ⟨.edge other, inside, (by simp [GraphRecord.writesEdge, named] :
                    GraphRecord.writesEdge edge.id (.edge other) = true)⟩
                rw [found] at some_
                cases some_
    | some record =>
        obtain ⟨member, isEdge⟩ := mem_of_lastEvent found
        cases record with
        | node node => cases isEdge
        | tombstone tombstone => cases isEdge
        | edge edge =>
            obtain rfl : edge.id = id := by simpa [GraphRecord.writesEdge] using isEdge
            have some_ := lastEvent_isSome_iff.mpr ⟨.edge edge, run.sublist.subset member, isEdge⟩
            obtain ⟨last, isLast⟩ := Option.isSome_iff_exists.mp some_
            have same := stores.edges edge last ((run.lastEdge_iff plain).mp found) open_ isLast
            rw [sameRecord, decide_eq_true_eq] at same
            rw [isLast, Option.map_some, Option.map_some, same]

/-- A node, and two versions of an edge at it: the first, the second, and the first again. -/
def restoredEdge : List GraphRecord :=
  let edge (resolution : CallResolution) : GraphRecord :=
    .edge {
      id := "codegraph:v1:e"
      schemaVersion := 1
      label := .calls
      source := "codegraph:v1:a"
      target := "codegraph:v1:a"
      resolution := some resolution }
  [.node { id := "codegraph:v1:a", kind := .symbol, schemaVersion := 1 },
    edge .resolved, edge .unresolved, edge .resolved]

def restoredEdgeSink : EmbeddedAletheiaSink :=
  ((runLog sampleAletheia {} restoredEdge).map Prod.snd).getD {}

/-- The run in which the restored edge is not written. -/
theorem restoredEdge_run :
    WriteRun sampleAletheia restoredEdge (restoredEdge.take 3) restoredEdgeSink := by
  have written : (runLog sampleAletheia {} restoredEdge).map Prod.fst =
      some (restoredEdge.take 3) := by
    decide
  obtain ⟨⟨stored, sink⟩, ran, same⟩ := Option.map_eq_some_iff.mp written
  have sinks : restoredEdgeSink = sink := by rw [restoredEdgeSink, ran]; rfl
  rw [sinks, ← same]
  exact WriteRun.start.runLog ran

/-- The equivalence at this run. -/
theorem restoredEdge_latestWriteWins_iff :
    ∃ slice, restoredEdgeSink.readAllRecords sampleAletheia = .ok slice ∧
      (LatestWriteWins restoredEdge slice ↔ StoresLastWrites restoredEdge) :=
  latestWriteWins_iff restoredEdge_run (by decide) (by decide)

/-- The read still gives the second version. -/
theorem restoredEdge_not_latestWriteWins :
    ∃ slice, restoredEdgeSink.readAllRecords sampleAletheia = .ok slice ∧
      ¬ LatestWriteWins restoredEdge slice := by
  obtain ⟨slice, read, ofId⟩ := readAllRecords_of_id restoredEdge_run (by decide) (by decide)
  refine ⟨slice, read, fun wins => ?_⟩
  have free : ¬ restoredEdgeSink.db.Suppressed "codegraph:v1:e" := by
    rw [restoredEdge_run.suppressed_iff]
    rintro ⟨tombstoneId, before, tombstone, after, split, -⟩
    have member : .tombstone tombstone ∈ restoredEdge := by simp [split]
    simp [restoredEdge] at member
  have shown := wins.edges "codegraph:v1:e"
  rw [((ofId _).2 free).2] at shown
  revert shown
  decide

end EmbeddedAletheiaSink

end Egregore
