import Egregore.Adapters.ReadAllSpec

/-!
# Runs of the embedded sink

The log of the records passed to a sink against the physical objects it holds. A tombstone
suppresses its target in the store exactly when, in the log, nothing has revived the target
since and its own record id has not been used for another target: `suppressedBy_iff`.
-/

namespace Egregore

open Base Database

namespace GraphRecord

/-- A write that brings `id` back: an edge of it, or a node of it without temporal metadata. -/
def revives (id : String) : GraphRecord → Bool
  | .node record => record.id = id && record.temporal.isNone
  | .edge record => record.id = id
  | .tombstone _ => false

/-- A tombstone under the record id `tombstoneId` that deletes another id. -/
def retargets (tombstoneId id : String) : GraphRecord → Bool
  | .tombstone record => record.id = tombstoneId && record.deletedId ≠ id
  | _ => false

/-- The record its stored properties decode to. -/
def stored : GraphRecord → GraphRecord
  | .node record => .node record.stored
  | .edge record => .edge record.stored
  | .tombstone record => .tombstone record

/-- A record without temporal fields is stored as it is. -/
theorem stored_eq_self {record : GraphRecord} (plain : record.temporal = none) :
    record.stored = record := by
  cases record with
  | node record =>
      obtain ⟨_⟩ := record
      obtain rfl := plain
      rfl
  | edge record =>
      obtain ⟨_⟩ := record
      obtain rfl := plain
      rfl
  | tombstone record => rfl

/-- Such a record revives what it writes. -/
theorem revives_eq_writes {record : GraphRecord} (plain : record.temporal = none) (id : String) :
    record.revives id = record.writes id := by
  cases record with
  | node record =>
      change record.temporal = none at plain
      simp [revives, writes, plain]
  | edge record => rfl
  | tombstone record => rfl

end GraphRecord

/-- In the log, the tombstone `tombstoneId` of `id` is followed neither by a write that brings
`id` back nor by another use of its record id. -/
def RetractedBy (log : List GraphRecord) (tombstoneId id : String) : Prop :=
  ∃ before tombstone after, log = before ++ .tombstone tombstone :: after ∧
    tombstone.id = tombstoneId ∧ tombstone.deletedId = id ∧
    ∀ record ∈ after, record.revives id = false ∧ record.retargets tombstoneId id = false

namespace EmbeddedAletheiaSink

/-- The sinks of a run: records passed one after another, each accepted, with the store closed
and opened again at any point. `written` are the records that were not reported unchanged. -/
inductive WriteRun (env : Aletheia) :
    List GraphRecord → List GraphRecord → EmbeddedAletheiaSink → Prop where
  | start : WriteRun env [] [] {}
  | inserted {log written : List GraphRecord} {sink sink' : EmbeddedAletheiaSink}
      {record : GraphRecord} (before : WriteRun env log written sink)
      (accepted : sink.writeRecord env record = (sink', .ok .inserted)) :
      WriteRun env (log ++ [record]) (written ++ [record]) sink'
  | unchanged {log written : List GraphRecord} {sink sink' : EmbeddedAletheiaSink}
      {record : GraphRecord} (before : WriteRun env log written sink)
      (accepted : sink.writeRecord env record = (sink', .ok .unchanged)) :
      WriteRun env (log ++ [record]) written sink'
  | reopened {log written : List GraphRecord} {sink sink' : EmbeddedAletheiaSink}
      (before : WriteRun env log written sink) (opened : openStore env sink.db = .ok sink') :
      WriteRun env log written sink'

variable {env : Aletheia} {sink sink' : EmbeddedAletheiaSink}
variable {log written : List GraphRecord}

/-- A run of writes reaches its sink. -/
theorem WriteRun.reachable (run : WriteRun env log written sink) :
    Reachable env.parseFromRfc3339 sink := by
  induction run with
  | start => exact .fresh
  | inserted _ accepted ih => exact ih.write rfl accepted
  | unchanged _ accepted ih => exact ih.write rfl accepted
  | reopened _ opened ih => exact ih.reopen rfl opened

/-- Pass records to a sink as long as each is accepted, and keep those that are written. -/
def runLog (env : Aletheia) : EmbeddedAletheiaSink → List GraphRecord →
    Option (List GraphRecord × EmbeddedAletheiaSink)
  | sink, [] => some ([], sink)
  | sink, record :: rest =>
      match sink.writeRecord env record with
      | (sink, .ok .inserted) => (runLog env sink rest).map fun run => (record :: run.1, run.2)
      | (sink, .ok .unchanged) => runLog env sink rest
      | (_, .error _) => none

/-- A run goes on with more writes. -/
theorem WriteRun.runLog {more later : List GraphRecord} (run : WriteRun env log written sink)
    (ran : sink.runLog env more = some (later, sink')) :
    WriteRun env (log ++ more) (written ++ later) sink' := by
  induction more generalizing sink log written later with
  | nil =>
      rw [EmbeddedAletheiaSink.runLog, Option.some.injEq, Prod.mk.injEq] at ran
      obtain ⟨rfl, rfl⟩ := ran
      simpa using run
  | cons record rest ih =>
      rw [EmbeddedAletheiaSink.runLog] at ran
      match wrote : sink.writeRecord env record, ran with
      | (next, .ok .inserted), ran =>
          obtain ⟨⟨others, last⟩, rest, same⟩ := Option.map_eq_some_iff.mp ran
          obtain ⟨rfl, rfl⟩ := Prod.mk.inj same
          simpa using ih (run.inserted wrote) rest
      | (next, .ok .unchanged), ran => simpa using ih (run.unchanged wrote) ran
      | (next, .error fault), ran => cases ran

/-- The sink of a run is coherent. -/
theorem WriteRun.coherent (run : WriteRun env log written sink) : Coherent env sink :=
  run.reachable.coherent env rfl

end EmbeddedAletheiaSink

namespace Database

/-- The tombstone stored last under `tombstoneId` deletes `id` and nothing has superseded it. -/
def SuppressedBy (db : Database) (tombstoneId id : String) : Prop :=
  ∃ nodeId record seq, db.getNode nodeId = some (.tombstone record seq) ∧
    record.id = tombstoneId ∧ record.deletedId = id ∧
    lastIdx (Stored.tombstoneOf tombstoneId) db = some nodeId ∧ ¬ db.Superseded nodeId id

variable {db : Database}

/-- A record is suppressed by some tombstone. -/
theorem suppressed_iff_exists {id : String} :
    db.Suppressed id ↔ ∃ tombstoneId, db.SuppressedBy tombstoneId id := by
  constructor
  · rintro ⟨nodeId, record, seq, found, deletes, last, fresh⟩
    exact ⟨record.id, nodeId, record, seq, found, rfl, deletes, last, fresh⟩
  · rintro ⟨_, nodeId, record, seq, found, rfl, deletes, last, fresh⟩
    exact ⟨nodeId, record, seq, found, deletes, last, fresh⟩

/-- One tombstone deletes one id. -/
theorem SuppressedBy.unique {tombstoneId id other : String}
    (suppressed : db.SuppressedBy tombstoneId id)
    (suppressed' : db.SuppressedBy tombstoneId other) : id = other := by
  obtain ⟨nodeId, record, seq, found, -, rfl, last, -⟩ := suppressed
  obtain ⟨nodeId', record', seq', found', -, rfl, last', -⟩ := suppressed'
  rw [last, Option.some.injEq] at last'
  subst last'
  rw [found, Option.some.injEq, StoredNode.tombstone.injEq] at found'
  rw [found'.1]

/-- An entry is superseded by a later record that revives its ID. -/
theorem superseded_append_singleton {last : Stored} {nodeId : Nat} {id : String}
    (inside : nodeId < db.length) :
    Superseded (db ++ [last]) nodeId id ↔ db.Superseded nodeId id ∨ last.revives id = true := by
  constructor
  · rintro ⟨later, stored, after, at_later, revived⟩
    rcases Nat.lt_or_ge later db.length with old | new
    · rw [List.getElem?_append_left old] at at_later
      exact Or.inl ⟨later, stored, after, at_later, revived⟩
    · have bound := (List.getElem?_eq_some_iff.mp at_later).1
      rw [List.length_append, List.length_singleton] at bound
      obtain rfl : later = db.length := by omega
      rw [List.getElem?_concat_length, Option.some.injEq] at at_later
      exact Or.inr (at_later ▸ revived)
  · rintro (⟨later, stored, after, at_later, revived⟩ | revived)
    · exact ⟨later, stored, after,
        by rwa [List.getElem?_append_left (List.getElem?_eq_some_iff.mp at_later).1], revived⟩
    · exact ⟨db.length, last, inside, List.getElem?_concat_length .., revived⟩

/-- A node or an edge ends the suppression of what it brings back, and no other. -/
theorem suppressedBy_append_of_not_tombstone {last : Stored} {tombstoneId id : String}
    (other : ∀ tombstoneId, last.tombstoneOf tombstoneId = false) :
    SuppressedBy (db ++ [last]) tombstoneId id ↔
      db.SuppressedBy tombstoneId id ∧ last.revives id = false := by
  have lastSame : lastIdx (Stored.tombstoneOf tombstoneId) (db ++ [last]) =
      lastIdx (Stored.tombstoneOf tombstoneId) db := by
    rw [lastIdx_append_singleton, other]
    rfl
  constructor
  · rintro ⟨nodeId, record, seq, found, named, deletes, isLast, fresh⟩
    rw [lastSame] at isLast
    have inside := (List.getElem?_eq_some_iff.mp (lastIdx_eq_some_iff.mp isLast).choose_spec.1).1
    rw [superseded_append_singleton inside, not_or, Bool.not_eq_true] at fresh
    rw [getNode_append_left inside] at found
    exact ⟨⟨nodeId, record, seq, found, named, deletes, isLast, fresh.1⟩, fresh.2⟩
  · rintro ⟨⟨nodeId, record, seq, found, named, deletes, isLast, fresh⟩, silent⟩
    have inside := lt_length_of_getNode found
    refine ⟨nodeId, record, seq, getNode_append_of_some found, named, deletes,
      lastSame.trans isLast, ?_⟩
    rw [superseded_append_singleton inside, not_or, Bool.not_eq_true]
    exact ⟨fresh, silent⟩

/-- A tombstone suppresses its target, and replaces the one stored under its record id. -/
theorem suppressedBy_append_tombstone {record : TombstoneRecord} {seq : Option Nat}
    {tombstoneId id : String} :
    SuppressedBy (db ++ [.node (.tombstone record seq)]) tombstoneId id ↔
      record.id = tombstoneId ∧ record.deletedId = id ∨
        record.id ≠ tombstoneId ∧ db.SuppressedBy tombstoneId id := by
  by_cases same : record.id = tombstoneId
  · have isLast : lastIdx (Stored.tombstoneOf tombstoneId)
        (db ++ [.node (.tombstone record seq)]) = some db.length := by
      rw [lastIdx_append_singleton, if_pos (by simp [Stored.tombstoneOf, same])]
    constructor
    · rintro ⟨nodeId, other, otherSeq, found, -, deletes, last, -⟩
      rw [isLast, Option.some.injEq] at last
      subst last
      rw [getNode_append_new, Stored.node?, Option.some.injEq,
        StoredNode.tombstone.injEq] at found
      exact Or.inl ⟨same, found.1 ▸ deletes⟩
    · rintro (⟨-, deletes⟩ | ⟨differs, -⟩)
      · refine ⟨db.length, record, seq, getNode_append_new _, same, deletes, isLast, ?_⟩
        rintro ⟨later, stored, after, at_later, -⟩
        have bound := (List.getElem?_eq_some_iff.mp at_later).1
        rw [List.length_append, List.length_singleton] at bound
        omega
      · exact absurd same differs
  · have lastSame : lastIdx (Stored.tombstoneOf tombstoneId)
        (db ++ [.node (.tombstone record seq)]) = lastIdx (Stored.tombstoneOf tombstoneId) db := by
      rw [lastIdx_append_singleton, if_neg (by simp [Stored.tombstoneOf, same])]
    have silent : Stored.revives id (.node (.tombstone record seq)) = false := rfl
    rw [or_iff_right fun both => same both.1, and_iff_right same]
    constructor
    · rintro ⟨nodeId, other, otherSeq, found, named, deletes, isLast, fresh⟩
      rw [lastSame] at isLast
      have inside := (List.getElem?_eq_some_iff.mp (lastIdx_eq_some_iff.mp isLast).choose_spec.1).1
      rw [superseded_append_singleton inside, not_or] at fresh
      rw [getNode_append_left inside] at found
      exact ⟨nodeId, other, otherSeq, found, named, deletes, isLast, fresh.1⟩
    · rintro ⟨nodeId, other, otherSeq, found, named, deletes, isLast, fresh⟩
      have inside := lt_length_of_getNode found
      refine ⟨nodeId, other, otherSeq, getNode_append_of_some found, named, deletes,
        lastSame.trans isLast, ?_⟩
      rw [superseded_append_singleton inside, silent]
      simpa using fresh

end Database

section Log

variable {log : List GraphRecord} {tombstoneId id : String}

/-- Nothing is retracted at first. -/
theorem not_retractedBy_nil : ¬ RetractedBy [] tombstoneId id := by
  rintro ⟨before, tombstone, after, split, -⟩
  simp at split

/-- A write after the log. -/
theorem retractedBy_append_singleton {last : GraphRecord} :
    RetractedBy (log ++ [last]) tombstoneId id ↔
      (∃ tombstone, last = .tombstone tombstone ∧ tombstone.id = tombstoneId ∧
          tombstone.deletedId = id) ∨
        RetractedBy log tombstoneId id ∧ last.revives id = false ∧
          last.retargets tombstoneId id = false := by
  constructor
  · rintro ⟨before, tombstone, after, split, named, deletes, silent⟩
    rcases List.eq_nil_or_concat' after with rfl | ⟨rest, final, rfl⟩
    · obtain ⟨-, ends⟩ := List.append_inj' split rfl
      rw [List.cons.injEq] at ends
      exact Or.inl ⟨tombstone, ends.1, named, deletes⟩
    · rw [← List.cons_append, ← List.append_assoc] at split
      obtain ⟨rfl, ends⟩ := List.append_inj' split rfl
      obtain rfl := List.singleton_inj.mp ends
      exact Or.inr ⟨⟨before, tombstone, rest, rfl, named, deletes, fun record member =>
        silent record (List.mem_append_left _ member)⟩, silent last (by simp)⟩
  · rintro (⟨tombstone, rfl, named, deletes⟩ | ⟨retracted, quiet⟩)
    · exact ⟨log, tombstone, [], rfl, named, deletes, by simp⟩
    · obtain ⟨before, tombstone, after, rfl, named, deletes, silent⟩ := retracted
      refine ⟨before, tombstone, after ++ [last], by simp, named, deletes, fun record member => ?_⟩
      rcases List.mem_append.mp member with old | new
      · exact silent record old
      · rw [List.mem_singleton.mp new]
        exact quiet

end Log

namespace EmbeddedAletheiaSink

variable {env : Aletheia} {sink sink' : EmbeddedAletheiaSink}
variable {log written : List GraphRecord}

section Guards

/-- A node or edge write that is skipped finds its id not retracted. -/
theorem not_suppressed_of_storedAndLive (coherent : Coherent env sink) {record : GraphRecord}
    (stored : sink.storedAndLive env record = .ok true) : ¬ sink.db.Suppressed record.id := by
  obtain ⟨active, activeEq, retracted⟩ := activeDeletedIds_spec coherent
  rw [storedAndLive, activeEq] at stored
  cases state : sink.expectedRecordState env record with
  | error fault => simp [state] at stored
  | ok found =>
      cases found with
      | matched =>
          simp only [state, Except.ok.injEq, Bool.not_eq_true'] at stored
          rw [← retracted, ← Std.ExtTreeSet.contains_iff_mem, stored]
          simp
      | mismatched => simp [state] at stored
      | missing => simp [state] at stored

/-- Only a tombstone is the same as a tombstone. -/
theorem eq_tombstone_of_sameRecord {record : GraphRecord} {tombstone : TombstoneRecord}
    (same : sameRecord record (.tombstone tombstone) = true) :
    ∃ stored, record = .tombstone stored ∧ stored.id = tombstone.id ∧
      stored.deletedId = tombstone.deletedId := by
  rw [sameRecord, decide_eq_true_eq] at same
  cases record with
  | node record => simp [GraphRecord.withClearedProducerStartedAt] at same
  | edge record => simp [GraphRecord.withClearedProducerStartedAt] at same
  | tombstone stored =>
      simp only [GraphRecord.withClearedProducerStartedAt, GraphRecord.tombstone.injEq,
        TombstoneRecord.mk.injEq] at same
      exact ⟨stored, rfl, same.1, same.2.2.1⟩

/-- A node that is read is stored with its ID. -/
theorem record_of_readNodeRecord {recordId : String} {nodeId : Nat} {record : GraphRecord}
    (read : sink.readNodeRecord env recordId nodeId = .ok record) :
    ∃ node seq, sink.db.getNode nodeId = some (.node node seq) ∧ node.id = recordId ∧
      record = .node node := by
  rw [readNodeRecord] at read
  cases found : sink.db.getNode nodeId with
  | none => simp [found] at read
  | some stored =>
      simp only [found] at read
      split at read
      · cases read
      · next named =>
          rw [not_not] at named
          cases stored with
          | tombstone tombstone seq => cases read
          | node node seq =>
              simp only [validated] at read
              split at read
              · exact ⟨node, seq, rfl, named, (Except.ok.inj read).symm⟩
              · cases read

/-- So is a tombstone that is read. -/
theorem record_of_readTombstoneRecord {recordId : String} {nodeId : Nat} {record : GraphRecord}
    (read : sink.readTombstoneRecord env recordId nodeId = .ok record) :
    ∃ tombstone seq, sink.db.getNode nodeId = some (.tombstone tombstone seq) ∧
      tombstone.id = recordId ∧ record = .tombstone tombstone := by
  rw [readTombstoneRecord] at read
  cases found : sink.db.getNode nodeId with
  | none => simp [found] at read
  | some stored =>
      simp only [found] at read
      split at read
      · cases read
      · next named =>
          rw [not_not] at named
          cases stored with
          | node node seq => cases read
          | tombstone tombstone seq =>
              simp only [validated] at read
              split at read
              · exact ⟨tombstone, seq, rfl, named, (Except.ok.inj read).symm⟩
              · cases read

/-- So is an edge that is read. -/
theorem record_of_readEdgeRecord {recordId : String} {edgeId : Nat} {record : GraphRecord}
    (read : sink.readEdgeRecord env recordId edgeId = .ok record) :
    ∃ edge, sink.db.getEdge edgeId = some edge ∧ edge.record.id = recordId ∧
      record = .edge edge.record := by
  rw [readEdgeRecord] at read
  cases found : sink.db.getEdge edgeId with
  | none => simp [found] at read
  | some edge =>
      simp only [found] at read
      split at read
      · cases read
      · next named =>
          rw [not_not] at named
          simp only [validated] at read
          split at read
          · exact ⟨edge, rfl, named, (Except.ok.inj read).symm⟩
          · cases read

/-- A tombstone that is read back is the one the index holds. -/
theorem tombstone_of_readBack {recordId : String} {tombstone : TombstoneRecord}
    (read : sink.readBack env recordId = .ok (some (.tombstone tombstone))) :
    ∃ nodeId seq, sink.tombstoneIds[recordId]? = some nodeId ∧
      sink.db.getNode nodeId = some (.tombstone tombstone seq) := by
  rw [readBack] at read
  split at read
  · next nodeId _ =>
      cases node : sink.readNodeRecord env recordId nodeId with
      | error fault => simp [node, Except.map] at read
      | ok record =>
          obtain ⟨_, _, -, -, rfl⟩ := record_of_readNodeRecord node
          simp [node, Except.map] at read
  · split at read
    · next nodeId indexed =>
        cases held : sink.readTombstoneRecord env recordId nodeId with
        | error fault => simp [held, Except.map] at read
        | ok record =>
            obtain ⟨stored, seq, found, -, rfl⟩ := record_of_readTombstoneRecord held
            simp only [held, Except.map, Except.ok.injEq, Option.some.injEq,
              GraphRecord.tombstone.injEq] at read
            subst read
            exact ⟨nodeId, seq, indexed, found⟩
    · split at read
      · cases read
      · cases read
      · next candidate _ =>
          cases held : sink.readEdgeRecord env recordId candidate.storageId with
          | error fault => simp [held, Except.map] at read
          | ok record =>
              obtain ⟨_, -, -, rfl⟩ := record_of_readEdgeRecord held
              simp [held, Except.map] at read

/-- A tombstone write that is skipped finds its target suppressed under its record id. -/
theorem suppressedBy_of_storedAndActive (coherent : Coherent env sink) {record : TombstoneRecord}
    (stored : sink.storedAndActive env record = .ok true) :
    sink.db.SuppressedBy record.id record.deletedId := by
  rw [storedAndActive] at stored
  cases state : sink.expectedRecordState env (.tombstone record) with
  | error fault => simp [state] at stored
  | ok found =>
      cases found with
      | mismatched => simp [state] at stored
      | missing => simp [state] at stored
      | matched =>
          simp only [state] at stored
          obtain ⟨found, same, read⟩ : ∃ found, sameRecord found (.tombstone record) = true ∧
              sink.readBack env record.id = .ok (some found) := by
            simp only [expectedRecordState, compareLatestRecord, GraphRecord.id_tombstone] at state
            split at state
            · cases state
            · cases state
            · next found read =>
                refine ⟨found, ?_, read⟩
                split at state
                · next same => exact same
                · cases state
          obtain ⟨other, rfl, named, deletes⟩ := eq_tombstone_of_sameRecord same
          obtain ⟨nodeId, seq, indexed, held⟩ := tombstone_of_readBack read
          have stale : sink.tombstoneNodeIsStale nodeId record.deletedId = false := by
            rw [storedTombstoneIsStale, indexed] at stored
            simpa [held, deletedIdOf, deletes] using stored
          refine ⟨nodeId, other, seq, held, named, deletes,
            (coherent.tombstoneIds _).symm.trans indexed, ?_⟩
          rw [← tombstoneNodeIsStale_iff coherent indexed, stale]
          simp

end Guards

/-- A run's written records are what its store holds, in order. -/
theorem WriteRun.records (run : WriteRun env log written sink) :
    sink.db.map Stored.record = written.map GraphRecord.stored := by
  induction run with
  | start => rfl
  | inserted before accepted ih =>
      cases accepts_of_writeRecord accepted with
      | inserted known notStored creates =>
          cases creates <;>
            · change List.map Stored.record (_ ++ [_]) = _
              rw [List.map_append, ih, List.map_append]
              rfl
  | unchanged before accepted ih =>
      cases accepts_of_writeRecord accepted with
      | unchanged known stored => exact ih
  | reopened before opened ih =>
      obtain ⟨reopened, opened', -, sameDb⟩ := openStore_coherent before.coherent _ rfl
      rw [opened, Except.ok.injEq] at opened'
      rw [opened', sameDb, ih]

/-- What was written are records of the log, in order. -/
theorem WriteRun.sublist (run : WriteRun env log written sink) : written.Sublist log := by
  induction run with
  | start => exact List.Sublist.refl _
  | inserted _ _ ih => exact ih.append (List.Sublist.refl _)
  | unchanged _ _ ih => exact ih.trans (List.sublist_append_left _ _)
  | reopened _ _ ih => exact ih

/-- A physical write suppresses and revives as the record says. -/
theorem Creates.suppressedBy {record : GraphRecord} (creates : Creates env sink record sink')
    {tombstoneId id : String} :
    sink'.db.SuppressedBy tombstoneId id ↔
      (∃ tombstone, record = .tombstone tombstone ∧ tombstone.id = tombstoneId ∧
          tombstone.deletedId = id) ∨
        sink.db.SuppressedBy tombstoneId id ∧ record.revives id = false ∧
          record.retargets tombstoneId id = false := by
  cases creates with
  | node record key read accepted =>
      have revives : Stored.revives id (preparedNode record (sink.writeSeq + 1)) =
          GraphRecord.revives id (.node record) := by
        simp [Stored.revives, preparedNode, Stored.plainNodeOf, Stored.edgeOf,
          GraphRecord.revives, NodeRecord.stored]
      change SuppressedBy (sink.db ++ [_]) _ _ ↔ _
      rw [suppressedBy_append_of_not_tombstone fun _ => rfl, revives]
      simp [GraphRecord.retargets]
  | tombstone record accepted =>
      change SuppressedBy (sink.db ++ [.node (.tombstone record _)]) _ _ ↔ _
      rw [suppressedBy_append_tombstone]
      simp only [GraphRecord.tombstone.injEq, exists_eq_left', GraphRecord.revives, true_and,
        GraphRecord.retargets, Bool.and_eq_false_iff, decide_eq_false_iff_not, not_not]
      constructor
      · rintro (both | ⟨differs, suppressed⟩)
        · exact Or.inl both
        · exact Or.inr ⟨suppressed, Or.inl differs⟩
      · rintro (both | ⟨suppressed, differs | deletes⟩)
        · exact Or.inl both
        · exact Or.inr ⟨differs, suppressed⟩
        · by_cases same : record.id = tombstoneId
          · exact Or.inl ⟨same, deletes⟩
          · exact Or.inr ⟨same, suppressed⟩
  | edge record source target from_ to_ accepted =>
      have revives : Stored.revives id (preparedEdge record source target (sink.writeSeq + 1)) =
          GraphRecord.revives id (.edge record) := by
        simp [Stored.revives, preparedEdge, Stored.plainNodeOf, Stored.edgeOf,
          GraphRecord.revives, EdgeRecord.stored]
      change SuppressedBy (sink.db ++ [_]) _ _ ↔ _
      rw [suppressedBy_append_of_not_tombstone fun _ => rfl, revives]
      simp [GraphRecord.retargets]

/-- A skipped write would not have changed what is suppressed. -/
theorem suppressedBy_of_guard (coherent : Coherent env sink) {record : GraphRecord}
    (stored : sink.guardOf env record = .ok true) {tombstoneId id : String} :
    sink.db.SuppressedBy tombstoneId id ↔
      (∃ tombstone, record = .tombstone tombstone ∧ tombstone.id = tombstoneId ∧
          tombstone.deletedId = id) ∨
        sink.db.SuppressedBy tombstoneId id ∧ record.revives id = false ∧
          record.retargets tombstoneId id = false := by
  -- A node or an edge that is skipped revives nothing that is suppressed.
  have live : ∀ {record : GraphRecord}, sink.storedAndLive env record = .ok true →
      sink.db.SuppressedBy tombstoneId id → record.revives id = false := by
    intro record stored suppressed
    by_contra revived
    rw [Bool.not_eq_false] at revived
    have named : record.id = id := by
      cases record <;> simp_all [GraphRecord.revives]
    exact not_suppressed_of_storedAndLive coherent stored
      (suppressed_iff_exists.mpr ⟨tombstoneId, named ▸ suppressed⟩)
  cases record with
  | node record =>
      simp only [reduceCtorEq, false_and, exists_false, false_or, GraphRecord.retargets, and_true]
      exact (and_iff_left_of_imp (live stored)).symm
  | edge record =>
      simp only [reduceCtorEq, false_and, exists_false, false_or, GraphRecord.retargets, and_true]
      exact (and_iff_left_of_imp (live stored)).symm
  | tombstone record =>
      have held := suppressedBy_of_storedAndActive coherent stored
      constructor
      · intro suppressed
        by_cases same : record.id = tombstoneId
        · exact Or.inl ⟨record, rfl, same, held.unique (same ▸ suppressed)⟩
        · exact Or.inr ⟨suppressed, rfl, by simp [GraphRecord.retargets, same]⟩
      · rintro (⟨tombstone, same, rfl, rfl⟩ | ⟨suppressed, -⟩)
        · obtain rfl := GraphRecord.tombstone.inj same
          exact held
        · exact suppressed

/-- A run of records without temporal metadata stores what it writes. -/
theorem WriteRun.records_plain (run : WriteRun env log written sink)
    (plain : ∀ record ∈ log, record.temporal = none) : sink.db.map Stored.record = written := by
  rw [run.records]
  refine (List.map_congr_left fun record member => ?_).trans (List.map_id written)
  exact GraphRecord.stored_eq_self (plain record (run.sublist.subset member))

/-- What the store suppresses is what the log retracts, tombstone by tombstone. -/
theorem suppressedBy_iff (run : WriteRun env log written sink) (tombstoneId id : String) :
    sink.db.SuppressedBy tombstoneId id ↔ RetractedBy log tombstoneId id := by
  induction run generalizing tombstoneId id with
  | start =>
      refine iff_of_false ?_ not_retractedBy_nil
      rintro ⟨nodeId, record, seq, found, -⟩
      simp [getNode] at found
  | @inserted log written sink sink' record before accepted ih =>
      rw [retractedBy_append_singleton, ← ih]
      cases accepts_of_writeRecord accepted with
      | inserted known notStored creates => exact creates.suppressedBy
  | @unchanged log written sink sink' record before accepted ih =>
      rw [retractedBy_append_singleton, ← ih]
      cases accepts_of_writeRecord accepted with
      | unchanged known stored => exact suppressedBy_of_guard before.coherent stored
  | reopened before opened ih =>
      obtain ⟨reopened, opened', -, sameDb⟩ := openStore_coherent before.coherent _ rfl
      rw [opened, Except.ok.injEq] at opened'
      rw [opened', sameDb, ih]

end EmbeddedAletheiaSink

end Egregore
