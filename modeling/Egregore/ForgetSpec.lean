import Egregore.Adapters.WriteEffect
import Egregore.Forget

/-!
# Repairing a retraction

A run of the command may stop between its two writes. Run again until it reports the target as
retracted, it ends with one event, the target hidden and nothing else changed, exactly when the
store and the IDs allow it: `forget_recovers_iff`.
-/

namespace Egregore

open Base Database EmbeddedAletheiaSink

namespace Forget

/-- The records that a retraction of the handle may change: the target, its event and its
tombstones. -/
def Own (env : ForgetEnv) (handle : String) : GraphRecord → Prop
  | .node node => node.id = handle ∨
      node.id = retractionEventId env handle ∧ node.kind = .retraction
  | .edge edge => edge.id = handle
  | .tombstone tombstone => tombstone.deletedId = handle

/-- The only record under the event's ID is a retraction event. -/
def OneEvent (env : ForgetEnv) (handle : String) (records : GraphRecord → Prop) : Prop :=
  ∃ event : NodeRecord, event.id = retractionEventId env handle ∧ event.kind = .retraction ∧
    ∀ record, record.id = retractionEventId env handle → (records record ↔ record = .node event)

/-- The target is hidden, with one event for it and no other record changed. -/
structure Forgotten (env : ForgetEnv) (handle : String) (before after : List GraphRecord) :
    Prop where
  gone : ∀ record ∈ after, record.writes handle = false
  retracted : ∃ record ∈ after, record.deletes handle = true
  event : OneEvent env handle (· ∈ after)
  others : ∀ record, ¬ Own env handle record → (record ∈ after ↔ record ∈ before)

section Runs

variable (aletheia : Aletheia) (env : ForgetEnv) (req : ForgetRequest)

/-- What the stored database reads as. -/
def Reads (db : Database) (records : List GraphRecord) : Prop :=
  ∃ sink, openStore aletheia db = .ok sink ∧ sink.readAllRecords aletheia = .ok records

/-- Run the command until it reports the target as already retracted. -/
inductive Settles (clock : Nat → String) : Nat → Database → Database → Prop where
  | settled {round : Nat} {db final : Database} {event : RetractionEvent}
      (run : forgetCmd aletheia env (clock round) req db =
        (final, .ok (.alreadyRetracted event))) :
      Settles clock round db final
  | again {round : Nat} {db next final : Database} {event : RetractionEvent}
      {records : List GraphRecord}
      (run : forgetCmd aletheia env (clock round) req db =
        (next, .ok (.retracted event records)))
      (more : Settles clock (round + 1) next final) : Settles clock round db final

/-- One more run hides the target again, with the event there is, and then reports it. -/
def Rehides (db : Database) : Prop :=
  ∀ now, ∃ before event final after, Reads aletheia db before ∧
    forgetCmd aletheia env now req db =
      (final, .ok (.retracted event [.tombstone (retractionTombstone env req.target)])) ∧
    Reads aletheia final after ∧ Forgotten env req.target before after ∧
    ∀ later, ∃ event, forgetCmd aletheia env later req final =
      (final, .ok (.alreadyRetracted event))

/-- From every crash point of the writes, running the command again ends with the target
forgotten; and once a write brings the target back, one more run hides it again. -/
def Recovers (clock : Nat → String) (opened : EmbeddedAletheiaSink)
    (before generated : List GraphRecord) : Prop :=
  ∀ count crashed, writeRecords aletheia opened (generated.take count) = (crashed, []) →
    ∃ final after, Settles aletheia env req clock 0 crashed.db final ∧
      Reads aletheia final after ∧ Forgotten env req.target before after ∧
      ∀ sink write revived outcome, openStore aletheia final = .ok sink →
        write.revives req.target = true →
        sink.writeRecord aletheia write = (revived, .ok outcome) →
        Rehides aletheia env req revived.db

end Runs

/-- What recovery takes: the tombstone's version, as the handle spells it, is one this build
reads; what is stored under the tombstone's ID can be read back, and no other target is retracted
under it; the event's ID is not the handle or the tombstone's ID, the last tombstone stored under
it is not one of the handle, and it is either unused or that of one event. -/
structure Recoverable (aletheia : Aletheia) (env : ForgetEnv) (handle : String) (db : Database)
    (before : List GraphRecord) : Prop where
  version : KnownVersion (.tombstone (retractionTombstone env handle))
  readable : ReadsBack aletheia db (retractionTombstone env handle).id
  only : ∀ tombstone : TombstoneRecord, .tombstone tombstone ∈ before →
    tombstone.id = (retractionTombstone env handle).id → tombstone.deletedId = handle
  eventId : retractionEventId env handle ≠ handle ∧
    retractionEventId env handle ≠ (retractionTombstone env handle).id
  silent : ∀ nodeId tombstone seq, db.getNode nodeId = some (.tombstone tombstone seq) →
    lastIdx (Stored.tombstoneOf (retractionEventId env handle)) db = some nodeId →
    tombstone.deletedId ≠ handle
  event : OneEvent env handle (· ∈ before) ∨
    ∀ record ∈ before, record.id ≠ retractionEventId env handle ∧
      record.deletes (retractionEventId env handle) = false

section Records

variable {aletheia : Aletheia} {env : ForgetEnv} {req : ForgetRequest} {handle now : String}
variable {records : List GraphRecord} {db : Database}

/-- The event node has the present version. -/
theorem recordVersion_buildEventNode (event : RetractionEvent) :
    KnownVersion (.node (buildEventNode env handle event)) := by
  have version : recordVersion (.node (buildEventNode env handle event)) =
      ⟨"agent_memory", "Retraction", agentMemorySchemaVersion⟩ := by
    simp [recordVersion, buildEventNode, RecordVersion.new, normalizeDomainName, NodeKind.asStr]
  rw [KnownVersion, version]
  decide

/-- The event's ID is not that of a project. -/
theorem isProjectId_retractionEventId : isProjectId (retractionEventId env handle) = false := by
  simp [isProjectId, retractionEventId, agentMemoryStableId, String.toList_append,
    List.isPrefixOf]

/-- An event is found where it is the only kind of record under its ID. -/
theorem findRetraction_of_events
    (recorded : ∃ record ∈ records, record.id = retractionEventId env handle)
    (events : ∀ record ∈ records, record.id = retractionEventId env handle →
      ∃ node : NodeRecord, record = .node node ∧ node.kind = .retraction) :
    ∃ node, findRetraction env handle records = some node := by
  obtain ⟨record, member, named⟩ := recorded
  cases found : lastEvent (fun record => record.id = retractionEventId env handle) records with
  | none =>
      rw [lastEvent, List.getLast?_eq_none_iff, List.filter_eq_nil_iff] at found
      exact absurd (decide_eq_true named) (found record member)
  | some last =>
      obtain ⟨inside, isEvent⟩ := mem_of_lastEvent found
      obtain ⟨node, rfl, kind⟩ := events last inside (of_decide_eq_true isEvent)
      exact ⟨node, by rw [findRetraction, found]; exact if_pos kind⟩

/-- No retraction is found while no record has the ID of its event. -/
theorem findRetraction_of_unused
    (unused : ∀ record ∈ records, record.id ≠ retractionEventId env handle) :
    findRetraction env handle records = none := by
  have none_ : lastEvent (fun record => record.id = retractionEventId env handle) records =
      none := by
    rw [lastEvent, List.getLast?_eq_none_iff, List.filter_eq_nil_iff]
    exact fun record member => by simpa using unused record member
  rw [findRetraction, none_]

end Records

section Phases

variable {aletheia : Aletheia} {env : ForgetEnv} {handle : String}
variable {db : Database} {seq : Nat}

/-- What the store promises the writes of a retraction. -/
structure Standing (aletheia : Aletheia) (env : ForgetEnv) (handle : String) (db : Database) :
    Prop where
  only : DeletesOnly aletheia db (retractionTombstone env handle).id handle
  silent : ∀ nodeId tombstone seq, db.getNode nodeId = some (.tombstone tombstone seq) →
    lastIdx (Stored.tombstoneOf (retractionEventId env handle)) db = some nodeId →
    tombstone.deletedId ≠ handle
  readable : ReadsBack aletheia db (retractionTombstone env handle).id
  untimed : ∀ nodeId node seq, db.getNode nodeId = some (.node node seq) → node.id = handle →
    node.temporal = none

/-- An event of the retraction is stored. -/
structure Pending (aletheia : Aletheia) (env : ForgetEnv) (handle : String) (db : Database) :
    Prop where
  standing : Standing aletheia env handle db
  recorded : ∃ record, Shown aletheia db record ∧ record.id = retractionEventId env handle
  events : ∀ record, Shown aletheia db record → record.id = retractionEventId env handle →
    ∃ node : NodeRecord, record = .node node ∧ node.kind = .retraction

/-- Nothing is stored under the event's ID. -/
def Fresh (aletheia : Aletheia) (env : ForgetEnv) (handle : String) (db : Database) : Prop :=
  ∀ record, Shown aletheia db record → record.id ≠ retractionEventId env handle ∧
    record.deletes (retractionEventId env handle) = false

/-- The event stands on after its tombstone is written. -/
theorem Standing.append_tombstone (standing : Standing aletheia env handle db)
    (apart : retractionEventId env handle ≠ (retractionTombstone env handle).id) :
    Standing aletheia env handle (db ++ [preparedTombstone (retractionTombstone env handle) seq]) where
  only := by
    rintro shown ⟨nodeId, stamp, found, isLast, -⟩ named
    rw [named, lastIdx_append_singleton,
      if_pos (by simp [preparedTombstone, Stored.tombstoneOf]), Option.some.injEq] at isLast
    subst isLast
    rw [getNode_append_new, preparedTombstone, Stored.node?, Option.some.injEq,
      StoredNode.tombstone.injEq] at found
    rw [← found.1]
    rfl
  silent := by
    intro nodeId tombstone stamp found isLast
    rw [lastIdx_append_singleton,
      if_neg (by simp [preparedTombstone, Stored.tombstoneOf, apart.symm])] at isLast
    have inside := (List.getElem?_eq_some_iff.mp (lastIdx_eq_some_iff.mp isLast).choose_spec.1).1
    rw [getNode_append_left inside] at found
    exact standing.silent nodeId tombstone stamp found isLast
  readable := Or.inl ⟨db.length, _, getNode_append_new _, rfl⟩
  untimed := by
    intro nodeId node stamp found named
    rcases getNode_append_singleton.mp found with before | ⟨-, isLast⟩
    · exact standing.untimed nodeId node stamp before named
    · cases isLast

/-- It stands on after a record comes back, as long as the tombstone reads back. -/
theorem Standing.append_revival (standing : Standing aletheia env handle db) {last : Stored}
    {id : String} (revives : last.revives id = true)
    (readable : ReadsBack aletheia (db ++ [last]) (retractionTombstone env handle).id) :
    Standing aletheia env handle (db ++ [last]) where
  only := fun shown isShown named =>
    standing.only shown ((shown_append_revival_tombstone revives).mp isShown).1 named
  silent := by
    intro nodeId tombstone stamp found isLast
    rw [lastIdx_append_singleton, not_tombstone_of_revives revives] at isLast
    have inside := (List.getElem?_eq_some_iff.mp (lastIdx_eq_some_iff.mp isLast).choose_spec.1).1
    rw [getNode_append_left inside] at found
    exact standing.silent nodeId tombstone stamp found isLast
  readable := readable
  untimed := by
    intro nodeId node stamp found named
    rcases getNode_append_singleton.mp found with before | ⟨-, isLast⟩
    · exact standing.untimed nodeId node stamp before named
    · refine untimed_of_revives revives node stamp ?_
      cases last with
      | edge edge => cases isLast
      | node stored =>
          obtain rfl := Option.some.inj isLast
          rfl

/-- Under the event's ID, the tombstone changes nothing. -/
theorem Standing.shown_event_iff (standing : Standing aletheia env handle db)
    (eventId : retractionEventId env handle ≠ handle ∧
      retractionEventId env handle ≠ (retractionTombstone env handle).id)
    {record : GraphRecord} (named : record.id = retractionEventId env handle) :
    Shown aletheia (db ++ [preparedTombstone (retractionTombstone env handle) seq]) record ↔
      Shown aletheia db record := by
  cases record with
  | node node => exact shown_append_tombstone standing.only (fun _ => rfl) (named ▸ eventId.1)
  | edge edge => exact shown_append_tombstone standing.only (fun _ => rfl) (named ▸ eventId.1)
  | tombstone tombstone =>
      have stays := @Standing.append_tombstone aletheia env handle db seq standing eventId.2
      by_cases deletes : tombstone.deletedId = handle
      · -- The last tombstone under the event's ID is not one of the handle.
        refine iff_of_false ?_ ?_
        · rintro ⟨nodeId, stamp, found, isLast, -⟩
          rw [show tombstone.id = _ from named] at isLast
          exact stays.silent nodeId tombstone stamp found isLast deletes
        · rintro ⟨nodeId, stamp, found, isLast, -⟩
          rw [show tombstone.id = _ from named] at isLast
          exact standing.silent nodeId tombstone stamp found isLast deletes
      · exact shown_append_tombstone_other standing.only deletes

/-- A pending retraction stays pending after its tombstone is written. -/
theorem Pending.append_tombstone (pending : Pending aletheia env handle db)
    (eventId : retractionEventId env handle ≠ handle ∧
      retractionEventId env handle ≠ (retractionTombstone env handle).id) :
    Pending aletheia env handle (db ++ [preparedTombstone (retractionTombstone env handle) seq]) where
  standing := pending.standing.append_tombstone eventId.2
  recorded := by
    obtain ⟨record, shown, named⟩ := pending.recorded
    exact ⟨record, (pending.standing.shown_event_iff eventId named).mpr shown, named⟩
  events := fun record shown named =>
    pending.events record ((pending.standing.shown_event_iff eventId named).mp shown) named

/-- Bringing the target back leaves the event as it is. -/
theorem Pending.shown_event_iff (pending : Pending aletheia env handle db) {last : Stored}
    (eventId : retractionEventId env handle ≠ handle) (revives : last.revives handle = true)
    {record : GraphRecord} (named : record.id = retractionEventId env handle) :
    Shown aletheia (db ++ [last]) record ↔ Shown aletheia db record := by
  cases record with
  | node node => exact shown_append_revival revives (fun _ => rfl) (named ▸ eventId)
  | edge edge => exact shown_append_revival revives (fun _ => rfl) (named ▸ eventId)
  | tombstone tombstone =>
      rw [shown_append_revival_tombstone revives]
      refine and_iff_left_of_imp fun shown => ?_
      obtain ⟨node, same, -⟩ := pending.events _ shown named
      cases same

/-- It stays pending after a record comes back. -/
theorem Pending.append_revival (pending : Pending aletheia env handle db) {last : Stored}
    (eventId : retractionEventId env handle ≠ handle) (revives : last.revives handle = true)
    (readable : ReadsBack aletheia (db ++ [last]) (retractionTombstone env handle).id) :
    Pending aletheia env handle (db ++ [last]) where
  standing := pending.standing.append_revival revives readable
  recorded := by
    obtain ⟨record, shown, named⟩ := pending.recorded
    exact ⟨record, (pending.shown_event_iff eventId revives named).mpr shown, named⟩
  events := fun record shown named =>
    pending.events record ((pending.shown_event_iff eventId revives named).mp shown) named

/-- A fresh handle has no suppressed event. -/
theorem Fresh.not_suppressed (fresh : Fresh aletheia env handle db) :
    ¬ db.Suppressed (retractionEventId env handle) := by
  intro suppressed
  obtain ⟨tombstoneId, suppressedBy⟩ := suppressed_iff_exists.mp suppressed
  obtain ⟨tombstone, shown, -, deletes⟩ := @shown_of_suppressedBy aletheia _ _ _ suppressedBy
  have undeleted := (fresh _ shown).2
  simp [GraphRecord.deletes, deletes] at undeleted

/-- The event is added, and changes nothing else. -/
theorem Fresh.shown_append_event (fresh : Fresh aletheia env handle db) {event : NodeRecord}
    (named : event.id = retractionEventId env handle) (untimed : event.temporal = none)
    (unstored : ∀ edgeId edge, db.getEdge edgeId = some edge →
      edge.record.id ≠ retractionEventId env handle)
    {record : GraphRecord} :
    Shown aletheia (db ++ [preparedNode event seq]) record ↔
      Shown aletheia db record ∨ record = .node event := by
  have plain : event.stored = event := GraphRecord.node.inj
    (GraphRecord.stored_eq_self (show (GraphRecord.node event).temporal = none from untimed))
  have revives : (preparedNode event seq).revives (retractionEventId env handle) = true := by
    simp [preparedNode, plain, Stored.revives, Stored.plainNodeOf, named, untimed]
  have unprojected : isProjectId (retractionEventId env handle) = false :=
    isProjectId_retractionEventId
  have free : ¬ Suppressed (db ++ [preparedNode event seq]) (retractionEventId env handle) := by
    rw [suppressed_append_revival revives]
    exact fun both => both.2 rfl
  by_cases under : record.id = retractionEventId env handle
  · have absent : ¬ Shown aletheia db record := fun shown => (fresh record shown).1 under
    rw [or_iff_right absent]
    cases record with
    | tombstone tombstone =>
        rw [shown_append_revival_tombstone revives]
        exact iff_of_false (fun both => absent both.1) (by simp)
    | edge edge =>
        refine iff_of_false ?_ (by simp)
        rintro ⟨edgeId, stored, found, rfl, -⟩
        rcases getEdge_append_singleton.mp found with before | ⟨-, isLast⟩
        · exact unstored edgeId stored before under
        · cases isLast
    | node node =>
        have isEvent : node.id = retractionEventId env handle := under
        have position : lastIdx (Stored.plainNodeOf node.id) (db ++ [preparedNode event seq]) =
            some db.length := by
          rw [lastIdx_append_singleton, isEvent, if_pos]
          simp [preparedNode, plain, Stored.plainNodeOf, named, untimed]
        have here : getNode (db ++ [preparedNode event seq]) db.length =
            some (.node event (some seq)) := by
          refine (getNode_append_new _).trans ?_
          rw [preparedNode, plain]
          rfl
        rw [GraphRecord.node.injEq]
        constructor
        · rintro (⟨_, _, -, project, -⟩ | snapshot | ⟨nodeId, stamp, found, isLast, -⟩)
          · rw [isEvent, unprojected] at project
            cases project
          · have before := (isSnapshot_append (untimed_of_revives revives) fun _ => by
              rw [isEvent]
              exact iff_of_false free fresh.not_suppressed).mp snapshot
            exact absurd (Or.inr (Or.inl before)) absent
          · rw [position, Option.some.injEq] at isLast
            subst isLast
            rw [here, Option.some.injEq, StoredNode.node.injEq] at found
            exact found.1.symm
        · rintro rfl
          refine Or.inr (Or.inr ⟨db.length, some seq, here, position, ?_, ?_⟩)
          · rw [isEvent]
            exact unprojected
          · rw [isEvent]
            exact free
  · have other : record ≠ .node event := by
      rintro rfl
      exact under named
    rw [or_iff_left other]
    cases record with
    | node node => exact shown_append_revival revives (fun _ => rfl) under
    | edge edge => exact shown_append_revival revives (fun _ => rfl) under
    | tombstone tombstone =>
        rw [shown_append_revival_tombstone revives]
        refine and_iff_left_of_imp fun shown deletes => ?_
        have undeleted := (fresh _ shown).2
        simp [GraphRecord.deletes, deletes] at undeleted

end Phases

section Command

variable {aletheia : Aletheia} {env : ForgetEnv} {req : ForgetRequest} {handle now : String}
variable {log written : List GraphRecord} {sink : EmbeddedAletheiaSink}

/-- No stored edge has the ID of the event of a fresh handle. -/
theorem Fresh.edge_unstored {db : Database} (fresh : Fresh aletheia env handle db) {edgeId : Nat}
    {edge : StoredEdge} (found : db.getEdge edgeId = some edge) :
    edge.record.id ≠ retractionEventId env handle := by
  intro named
  obtain ⟨shown, same, isShown⟩ := @exists_shown_of_edge aletheia db edgeId edge found
    (named ▸ fresh.not_suppressed)
  exact (fresh _ isShown).1 (same.trans named)

/-- No stored node has that ID. -/
theorem Fresh.node_unstored (fresh : Fresh aletheia env handle sink.db)
    (coherent : Coherent aletheia sink) {nodeId : Nat} {node : NodeRecord} {seq : Option Nat}
    (found : sink.db.getNode nodeId = some (.node node seq)) :
    node.id ≠ retractionEventId env handle := by
  intro named
  obtain ⟨shown, same, isShown⟩ := exists_shown_of_stored coherent found
    (named ▸ isProjectId_retractionEventId) (named ▸ fresh.not_suppressed)
  exact (fresh _ isShown).1 (same.trans named)

/-- The store of a run opens and reads. -/
theorem run_opens (run : WriteRun aletheia log written sink) :
    ∃ opened records, openStore aletheia sink.db = .ok opened ∧ opened.db = sink.db ∧
      WriteRun aletheia log written opened ∧ opened.readAllRecords aletheia = .ok records ∧
      ∀ record, record ∈ records ↔ Shown aletheia sink.db record := by
  obtain ⟨opened, opens, coherent, same⟩ := openStore_coherent run.coherent aletheia rfl
  have run' := run.reopened opens
  obtain ⟨records, read, shown⟩ := readAllRecords_shown run'.coherent run'.reachable.known
  rw [same] at shown
  exact ⟨opened, records, opens, same, run', read, shown⟩

/-- The write of the event. -/
theorem write_event (run : WriteRun aletheia log written sink)
    (accepting : ∀ db stored, aletheia.refuses db stored = none)
    (fresh : Fresh aletheia env handle sink.db) {event : NodeRecord}
    (version : KnownVersion (.node event)) (named : event.id = retractionEventId env handle)
    (untimed : event.temporal = none) :
    ∃ seq sink', sink.writeAndVerify aletheia (.node event) = (sink', .ok .inserted) ∧
      sink'.db = sink.db ++ [preparedNode event seq] ∧
      WriteRun aletheia (log ++ [.node event]) (written ++ [.node event]) sink' := by
  have readable : ReadsBack aletheia sink.db event.id :=
    Or.inr fun edgeId edge found same => absurd (same.trans named) (fresh.edge_unstored found)
  obtain ⟨wrote, verified⟩ := writeAndVerify_node run.coherent run.reachable.known untimed
    (accepting _ _) version readable fun nodeId stored seq found same =>
      fresh.node_unstored run.coherent found (same.trans named)
  exact ⟨sink.writeSeq + 1, _, verified, rfl, run.inserted wrote⟩

/-- The write of the tombstone. -/
theorem write_tombstone (run : WriteRun aletheia log written sink)
    (accepting : ∀ db stored, aletheia.refuses db stored = none)
    (version : KnownVersion (.tombstone (retractionTombstone env handle)))
    (standing : Standing aletheia env handle sink.db) (free : ¬ sink.db.Suppressed handle) :
    ∃ seq sink', sink.writeAndVerify aletheia (.tombstone (retractionTombstone env handle)) =
        (sink', .ok .inserted) ∧
      sink'.db = sink.db ++ [preparedTombstone (retractionTombstone env handle) seq] ∧
      WriteRun aletheia (log ++ [.tombstone (retractionTombstone env handle)])
        (written ++ [.tombstone (retractionTombstone env handle)]) sink' := by
  obtain ⟨wrote, verified⟩ := writeAndVerify_tombstone run.coherent run.reachable.known
    (accepting _ _) version standing.readable fun suppressed =>
      free (suppressed_iff_exists.mpr ⟨_, suppressed⟩)
  exact ⟨sink.writeSeq + 1, _, verified, rfl, run.inserted wrote⟩

/-- Some shown record deletes the handle exactly when the database suppresses it. -/
theorem any_deletes_iff {records : List GraphRecord} {db : Database}
    (shown : ∀ record, record ∈ records ↔ Shown aletheia db record) :
    records.any (GraphRecord.deletes handle) = true ↔ db.Suppressed handle := by
  rw [List.any_eq_true]
  constructor
  · rintro ⟨record, member, deletes⟩
    cases record with
    | node node => cases deletes
    | edge edge => cases deletes
    | tombstone tombstone =>
        obtain ⟨nodeId, seq, -, -, suppressed⟩ := (shown _).mp member
        obtain rfl : tombstone.deletedId = handle := by simpa [GraphRecord.deletes] using deletes
        exact suppressed
  · intro suppressed
    obtain ⟨tombstoneId, suppressedBy⟩ := suppressed_iff_exists.mp suppressed
    obtain ⟨tombstone, isShown, -, deletes⟩ := @shown_of_suppressedBy aletheia _ _ _ suppressedBy
    exact ⟨.tombstone tombstone, (shown _).mpr isShown, by simp [GraphRecord.deletes, deletes]⟩

/-- A pending retraction is found again in what the store shows. -/
theorem Pending.findRetraction {db : Database} (pending : Pending aletheia env handle db)
    {records : List GraphRecord} (shown : ∀ record, record ∈ records ↔ Shown aletheia db record) :
    ∃ node, findRetraction env handle records = some node := by
  obtain ⟨record, isShown, named⟩ := pending.recorded
  exact findRetraction_of_events ⟨record, (shown record).mpr isShown, named⟩
    fun record member => pending.events record ((shown record).mp member)

/-- With the event stored and the target visible, a run writes the tombstone. -/
theorem forgetCmd_pending (run : WriteRun aletheia log written sink)
    (accepting : ∀ db stored, aletheia.refuses db stored = none)
    (version : KnownVersion (.tombstone (retractionTombstone env req.target)))
    (valid : validateRequest env req = .ok ())
    (pending : Pending aletheia env req.target sink.db) (free : ¬ sink.db.Suppressed req.target) :
    ∃ event seq sink', forgetCmd aletheia env now req sink.db =
        (sink'.db, .ok (.retracted event [.tombstone (retractionTombstone env req.target)])) ∧
      sink'.db = sink.db ++ [preparedTombstone (retractionTombstone env req.target) seq] ∧
      WriteRun aletheia (log ++ [.tombstone (retractionTombstone env req.target)])
        (written ++ [.tombstone (retractionTombstone env req.target)]) sink' := by
  obtain ⟨opened, records, opens, same, run', read, shown⟩ := run_opens run
  obtain ⟨node, found⟩ := pending.findRetraction shown
  have visible : records.any (GraphRecord.deletes req.target) = false := by
    rw [← Bool.not_eq_true, any_deletes_iff shown]
    exact free
  obtain ⟨seq, sink', wrote, stored, run''⟩ := write_tombstone run' accepting version
    (same.symm ▸ pending.standing) (same.symm ▸ free)
  refine ⟨storedRetraction env req.target node, seq, sink', ?_, same ▸ stored, run''⟩
  simp only [forgetCmd, opens, read, retractFromRecords, valid, found, visible, Bool.false_eq_true,
    if_false, writeRecords, wrote]

/-- With the event stored and the target hidden, a run reports it. -/
theorem forgetCmd_done (run : WriteRun aletheia log written sink)
    (valid : validateRequest env req = .ok ())
    (pending : Pending aletheia env req.target sink.db) (hidden : sink.db.Suppressed req.target) :
    ∃ event, forgetCmd aletheia env now req sink.db =
      (sink.db, .ok (.alreadyRetracted event)) := by
  obtain ⟨opened, records, opens, -, -, read, shown⟩ := run_opens run
  obtain ⟨node, found⟩ := pending.findRetraction shown
  have visible := (any_deletes_iff shown).mpr hidden
  refine ⟨storedRetraction env req.target node, ?_⟩
  simp only [forgetCmd, opens, read, retractFromRecords, valid, found, visible, if_true]

/-- Accepted, a retraction finds an event stored, or its target and no event. -/
theorem retracted_cases {records generated : List GraphRecord} {event : RetractionEvent}
    (accepted : retractFromRecords env now records req = .ok (.retracted event generated)) :
    validateRequest env req = .ok () ∧
      ((∃ node, findRetraction env req.target records = some node ∧
          records.any (GraphRecord.deletes req.target) = false ∧
          generated = [.tombstone (retractionTombstone env req.target)]) ∨
        findRetraction env req.target records = none ∧
          (∃ target, lastEvent (fun record => record.id = req.target) records = some target ∧
            refuseUnsupportedTarget target req.target = .ok ()) ∧
          generated = [.node (buildEventNode env req.target (newRetraction env now req)),
            .tombstone (retractionTombstone env req.target)]) := by
  rw [retractFromRecords] at accepted
  split at accepted
  · cases accepted
  · next valid =>
      refine ⟨valid, ?_⟩
      split at accepted
      · next node found =>
          dsimp only at accepted
          split at accepted
          · cases accepted
          · next visible =>
              rw [Except.ok.injEq, ForgetOutcome.retracted.injEq] at accepted
              exact Or.inl ⟨node, found, by simpa using visible, accepted.2.symm⟩
      · next none_ =>
          split at accepted
          · cases accepted
          · next target found =>
              split at accepted
              · cases accepted
              · next allowed =>
                  rw [Except.ok.injEq, ForgetOutcome.retracted.injEq] at accepted
                  exact Or.inr ⟨none_, ⟨target, found, allowed⟩, accepted.2.symm⟩

/-- A target that is not refused is visible. -/
theorem not_suppressed_of_allowed {records : List GraphRecord} {db : Database}
    (shown : ∀ record, record ∈ records ↔ Shown aletheia db record) {target : GraphRecord}
    (found : lastEvent (fun record => record.id = handle) records = some target)
    (allowed : refuseUnsupportedTarget target handle = .ok ()) : ¬ db.Suppressed handle := by
  obtain ⟨member, named⟩ := mem_of_lastEvent found
  obtain rfl : target.id = handle := of_decide_eq_true named
  unfold refuseUnsupportedTarget at allowed
  split at allowed
  · cases allowed
  · split at allowed
    · cases allowed
    · cases target with
      | tombstone tombstone => cases allowed
      | edge edge =>
          obtain ⟨_, _, -, -, -, free⟩ := (shown _).mp member
          exact free
      | node node =>
          rcases (shown _).mp member with ⟨_, _, -, -, free⟩ | snapshot | ⟨_, _, -, -, -, free⟩
          · exact free
          · obtain ⟨_, _, -, timed⟩ := snapshot.stored
            rw [← Option.isSome_iff_ne_none] at timed
            dsimp only at allowed
            split at allowed
            · cases allowed
            · cases allowed
          · exact free

/-- After the event is written it is the only record under its ID. -/
theorem pending_of_event {db : Database} {seq : Nat} (fresh : Fresh aletheia env handle db)
    (standing : Standing aletheia env handle db)
    {event : NodeRecord} (named : event.id = retractionEventId env handle)
    (kind : event.kind = .retraction) (untimed : event.temporal = none) :
    Pending aletheia env handle (db ++ [preparedNode event seq]) ∧
      OneEvent env handle (Shown aletheia (db ++ [preparedNode event seq])) := by
  have shown := fun record => @Fresh.shown_append_event aletheia env handle db seq fresh event named
    untimed (fun _ _ found => fresh.edge_unstored found) record
  have one : ∀ record : GraphRecord, record.id = retractionEventId env handle →
      (Shown aletheia (db ++ [preparedNode event seq]) record ↔ record = .node event) := by
    intro record under
    rw [shown, or_iff_right fun held => (fresh record held).1 under]
  refine ⟨⟨?_, ?_, ?_⟩, event, named, kind, one⟩
  · have plain : event.stored = event := GraphRecord.node.inj
      (GraphRecord.stored_eq_self (show (GraphRecord.node event).temporal = none from untimed))
    have revives : (preparedNode event seq).revives (retractionEventId env handle) = true := by
      simp [preparedNode, plain, Stored.revives, Stored.plainNodeOf, named, untimed]
    refine standing.append_revival revives ?_
    rcases standing.readable with ⟨nodeId, stored, found, same⟩ | edges
    · exact Or.inl ⟨nodeId, stored, getNode_append_of_some found, same⟩
    · refine Or.inr fun edgeId edge found same => ?_
      rcases getEdge_append_singleton.mp found with before | ⟨-, isLast⟩
      · exact edges edgeId edge before same
      · cases isLast
  · exact ⟨.node event, (one (.node event) named).mpr rfl, named⟩
  · exact fun record isShown under => ⟨event, (one record under).mp isShown, kind⟩

/-- The tombstone completes the retraction. -/
theorem forgotten_of_tombstone {db : Database} {seq : Nat} {before after : List GraphRecord}
    (pending : Pending aletheia env handle db)
    (eventId : retractionEventId env handle ≠ handle ∧
      retractionEventId env handle ≠ (retractionTombstone env handle).id)
    (one : OneEvent env handle (Shown aletheia db))
    (same : ∀ record, ¬ Own env handle record → (Shown aletheia db record ↔ record ∈ before))
    (shown : ∀ record, record ∈ after ↔ Shown aletheia
      (db ++ [preparedTombstone (retractionTombstone env handle) seq]) record) :
    Forgotten env handle before after where
  gone := by
    intro record member
    by_contra writes
    rw [Bool.not_eq_false] at writes
    have hidden : record.id = (retractionTombstone env handle).deletedId :=
      GraphRecord.id_of_writes writes
    exact not_shown_append_target hidden
      (fun target => GraphRecord.not_deletes_of_writes writes) pending.standing.untimed
      ((shown record).mp member)
  retracted := by
    refine ⟨.tombstone (retractionTombstone env handle), (shown _).mpr shown_append_self, ?_⟩
    simp [GraphRecord.deletes, retractionTombstone]
  event := by
    obtain ⟨event, named, kind, only⟩ := one
    refine ⟨event, named, kind, fun record under => (shown record).trans ?_⟩
    rw [pending.standing.shown_event_iff eventId under, only record under]
  others := by
    intro record foreign
    rw [shown, ← same record foreign]
    cases record with
    | node node =>
        exact shown_append_tombstone pending.standing.only (fun _ => rfl)
          fun same => foreign (Or.inl same)
    | edge edge =>
        exact shown_append_tombstone pending.standing.only (fun _ => rfl) foreign
    | tombstone tombstone =>
        exact shown_append_tombstone_other pending.standing.only foreign

end Command

section Recovery

variable {aletheia : Aletheia} {env : ForgetEnv} {req : ForgetRequest} {clock : Nat → String}
variable {log written : List GraphRecord} {sink : EmbeddedAletheiaSink}

/-- A write that brings a hidden id back is stored. -/
theorem stored_of_revival (run : WriteRun aletheia log written sink)
    {write : GraphRecord} {revived : EmbeddedAletheiaSink} {outcome : WriteOutcome} {id : String}
    (hidden : sink.db.Suppressed id) (revives : write.revives id = true)
    (wrote : sink.writeRecord aletheia write = (revived, .ok outcome)) :
    WriteRun aletheia (log ++ [write]) (written ++ [write]) revived ∧
      ∃ last : Stored, last.revives id = true ∧ revived.db = sink.db ++ [last] := by
  cases accepts_of_writeRecord wrote with
  | unchanged known stored =>
      cases write with
      | tombstone tombstone => cases revives
      | node node =>
          obtain rfl : node.id = id := by
            simp only [GraphRecord.revives, Bool.and_eq_true, decide_eq_true_eq] at revives
            exact revives.1
          exact absurd hidden (not_suppressed_of_storedAndLive run.coherent stored)
      | edge edge =>
          obtain rfl : edge.id = id := by simpa [GraphRecord.revives] using revives
          exact absurd hidden (not_suppressed_of_storedAndLive run.coherent stored)
  | inserted known notStored creates =>
      refine ⟨run.inserted wrote, ?_⟩
      cases creates with
      | tombstone tombstone accepted => cases revives
      | node node key read accepted =>
          refine ⟨_, ?_, rfl⟩
          simpa [GraphRecord.revives, preparedNode, NodeRecord.stored, Stored.revives,
            Stored.plainNodeOf, Stored.edgeOf] using revives
      | edge edge source target from_ to_ accepted =>
          refine ⟨_, ?_, rfl⟩
          simpa [GraphRecord.revives, preparedEdge, EdgeRecord.stored, Stored.revives,
            Stored.plainNodeOf, Stored.edgeOf] using revives

/-- The two writes of a new retraction. -/
theorem write_fresh (run : WriteRun aletheia log written sink)
    (accepting : ∀ db stored, aletheia.refuses db stored = none)
    (version : KnownVersion (.tombstone (retractionTombstone env req.target)))
    (fresh : Fresh aletheia env req.target sink.db)
    (standing : Standing aletheia env req.target sink.db)
    (free : ¬ sink.db.Suppressed req.target) (now : String) :
    ∃ first last seq seq' log' written',
      sink.writeAndVerify aletheia
        (.node (buildEventNode env req.target (newRetraction env now req))) =
          (first, .ok .inserted) ∧
      first.writeAndVerify aletheia (.tombstone (retractionTombstone env req.target)) =
        (last, .ok .inserted) ∧
      first.db = sink.db ++ [preparedNode
        (buildEventNode env req.target (newRetraction env now req)) seq] ∧
      last.db = first.db ++ [preparedTombstone (retractionTombstone env req.target) seq'] ∧
      WriteRun aletheia log' written' first ∧
      WriteRun aletheia (log' ++ [.tombstone (retractionTombstone env req.target)])
        (written' ++ [.tombstone (retractionTombstone env req.target)]) last ∧
      Pending aletheia env req.target first.db ∧
      OneEvent env req.target (Shown aletheia first.db) ∧
      ¬ first.db.Suppressed req.target ∧
      ∀ record, ¬ Own env req.target record →
        (Shown aletheia first.db record ↔ Shown aletheia sink.db record) := by
  obtain ⟨seq, first, wrote, stored, run'⟩ := write_event run accepting fresh
    (recordVersion_buildEventNode (newRetraction env now req)) rfl rfl
  obtain ⟨pending, one⟩ := @pending_of_event aletheia env req.target sink.db seq fresh standing
    (buildEventNode env req.target (newRetraction env now req)) rfl rfl rfl
  rw [← stored] at pending one
  have free' : ¬ first.db.Suppressed req.target := by
    have revives : (preparedNode (buildEventNode env req.target (newRetraction env now req))
        seq).revives (retractionEventId env req.target) = true := by
      simp [preparedNode, NodeRecord.stored, Stored.revives, Stored.plainNodeOf, buildEventNode,
        newRetraction]
    rw [stored, suppressed_append_revival revives]
    exact fun both => free both.1
  obtain ⟨seq', last, wrote', stored', run''⟩ :=
    write_tombstone run' accepting version pending.standing free'
  refine ⟨first, last, seq, seq', _, _, wrote, wrote', stored, stored', run', run'', pending, one,
    free', fun record foreign => ?_⟩
  rw [stored, fresh.shown_append_event rfl rfl fun _ _ found => fresh.edge_unstored found]
  refine or_iff_left ?_
  rintro rfl
  exact foreign (Or.inr ⟨rfl, rfl⟩)

/-- The target is forgotten, and where a write brings it back, one more run hides it again. -/
def Recovered (aletheia : Aletheia) (env : ForgetEnv) (req : ForgetRequest)
    (before : List GraphRecord) (final : Database) : Prop :=
  ∃ after, Reads aletheia final after ∧ Forgotten env req.target before after ∧
    ∀ sink write revived outcome, openStore aletheia final = .ok sink →
      write.revives req.target = true →
      sink.writeRecord aletheia write = (revived, .ok outcome) →
      Rehides aletheia env req revived.db

section Pending

variable (run : WriteRun aletheia log written sink)
  (accepting : ∀ db stored, aletheia.refuses db stored = none)
  (version : KnownVersion (.tombstone (retractionTombstone env req.target)))
  (valid : validateRequest env req = .ok ())
  (eventId : retractionEventId env req.target ≠ req.target ∧
    retractionEventId env req.target ≠ (retractionTombstone env req.target).id)

include run accepting version valid eventId

/-- With an event stored and the target visible, one run hides it and the next reports it. -/
theorem settles_pending (pending : Pending aletheia env req.target sink.db)
    (free : ¬ sink.db.Suppressed req.target) (now : String) :
    ∃ event seq sink', forgetCmd aletheia env now req sink.db =
        (sink'.db, .ok (.retracted event [.tombstone (retractionTombstone env req.target)])) ∧
      sink'.db = sink.db ++ [preparedTombstone (retractionTombstone env req.target) seq] ∧
      WriteRun aletheia (log ++ [.tombstone (retractionTombstone env req.target)])
        (written ++ [.tombstone (retractionTombstone env req.target)]) sink' ∧
      ∀ later, ∃ event, forgetCmd aletheia env later req sink'.db =
        (sink'.db, .ok (.alreadyRetracted event)) := by
  obtain ⟨event, seq, sink', ran, stored, run'⟩ :=
    @forgetCmd_pending aletheia env req now _ _ _ run accepting version valid pending free
  refine ⟨event, seq, sink', ran, stored, run', fun later => ?_⟩
  refine forgetCmd_done run' valid (stored ▸ pending.append_tombstone eventId) ?_
  rw [stored]
  exact (suppressed_append_tombstone pending.standing.only).mpr (Or.inl rfl)

/-- A retry of a pending retraction hides the target again. -/
theorem rehides_pending (pending : Pending aletheia env req.target sink.db)
    (one : OneEvent env req.target (Shown aletheia sink.db))
    (free : ¬ sink.db.Suppressed req.target) : Rehides aletheia env req sink.db := by
  intro now
  obtain ⟨opened, before, opens, -, -, read, shown⟩ := run_opens run
  obtain ⟨event, seq, sink', ran, stored, run', done⟩ :=
    settles_pending run accepting version valid eventId pending free now
  obtain ⟨opened', after, opens', -, -, read', shown'⟩ := run_opens run'
  refine ⟨before, event, sink'.db, after, ⟨opened, opens, read⟩, ran, ⟨opened', opens', read'⟩,
    ?_, done⟩
  exact forgotten_of_tombstone pending eventId one (fun record _ => (shown record).symm)
    (stored ▸ shown')

/-- What holds once the tombstone is written over a stored event. -/
theorem recovered_of_tombstone {db : Database} {seq : Nat} {before : List GraphRecord}
    (stored : sink.db = db ++ [preparedTombstone (retractionTombstone env req.target) seq])
    (pending : Pending aletheia env req.target db)
    (one : OneEvent env req.target (Shown aletheia db))
    (same : ∀ record, ¬ Own env req.target record →
      (Shown aletheia db record ↔ record ∈ before)) :
    (∀ round, Settles aletheia env req clock round sink.db sink.db) ∧
      Recovered aletheia env req before sink.db := by
  obtain ⟨opened, after, opens, sameDb, run', read, shown⟩ := run_opens run
  have pending' := stored ▸ @Pending.append_tombstone aletheia env req.target db seq pending eventId
  have hidden : sink.db.Suppressed req.target := by
    rw [stored]
    exact (suppressed_append_tombstone pending.standing.only).mpr (Or.inl rfl)
  refine ⟨fun round => ?_, after, ⟨opened, opens, read⟩,
    forgotten_of_tombstone pending eventId one same (stored ▸ shown), ?_⟩
  · obtain ⟨event, reported⟩ := @forgetCmd_done aletheia env req (clock round) _ _ _ run valid
      (stored ▸ pending') hidden
    exact .settled reported
  intro opened' write revived outcome opens' revives wrote
  rw [opens, Except.ok.injEq] at opens'
  subst opens'
  obtain ⟨run'', last, isRevival, grown⟩ :=
    stored_of_revival run' (sameDb.symm ▸ hidden) revives wrote
  rw [sameDb] at grown
  have readable : ReadsBack aletheia (sink.db ++ [last])
      (retractionTombstone env req.target).id := by
    refine Or.inl ⟨db.length, .tombstone (retractionTombstone env req.target) (some seq), ?_, rfl⟩
    refine getNode_append_of_some ?_
    rw [stored]
    exact getNode_append_new _
  refine rehides_pending run'' accepting version valid eventId
    (grown ▸ pending'.append_revival eventId.1 isRevival readable) ?_ ?_
  · obtain ⟨event, named, kind, only⟩ := one
    refine ⟨event, named, kind, fun record under => ?_⟩
    rw [grown, pending'.shown_event_iff eventId.1 isRevival under, stored,
      pending.standing.shown_event_iff eventId under, only record under]
  · rw [grown, suppressed_append_revival isRevival]
    exact fun both => both.2 rfl

/-- From a pending retraction, one more run is all it takes. -/
theorem recovered_of_pending (pending : Pending aletheia env req.target sink.db)
    (one : OneEvent env req.target (Shown aletheia sink.db))
    (free : ¬ sink.db.Suppressed req.target) {before : List GraphRecord}
    (same : ∀ record, ¬ Own env req.target record →
      (Shown aletheia sink.db record ↔ record ∈ before)) :
    ∃ final, Settles aletheia env req clock 0 sink.db final ∧
      Recovered aletheia env req before final := by
  obtain ⟨_, seq, last, ran, stored, run', -⟩ :=
    settles_pending run accepting version valid eventId pending free (clock 0)
  obtain ⟨settles, recovered⟩ := @recovered_of_tombstone aletheia env req clock _ _ _ run'
    accepting version valid eventId _ _ _ stored pending one same
  exact ⟨last.db, .again ran (settles 1), recovered⟩

end Pending

/-- Recovery from every crash point. -/
theorem recovers_of_recoverable (run : WriteRun aletheia log written sink)
    (accepting : ∀ db stored, aletheia.refuses db stored = none)
    {opened : EmbeddedAletheiaSink} (opens : openStore aletheia sink.db = .ok opened)
    {before : List GraphRecord} (read : opened.readAllRecords aletheia = .ok before)
    (shown : ∀ record, record ∈ before ↔ Shown aletheia sink.db record)
    (untimed : ∀ nodeId node seq, sink.db.getNode nodeId = some (.node node seq) →
      node.id = req.target → node.temporal = none)
    {now : String} {event : RetractionEvent} {generated : List GraphRecord}
    (accepted : retractFromRecords env now before req = .ok (.retracted event generated))
    (recoverable : Recoverable aletheia env req.target sink.db before) :
    Recovers aletheia env req clock opened before generated := by
  have version := recoverable.version
  have eventId := recoverable.eventId
  have standing : Standing aletheia env req.target sink.db :=
    ⟨fun tombstone isShown => recoverable.only tombstone ((shown _).mpr isShown),
      recoverable.silent, recoverable.readable, untimed⟩
  have sameDb : opened.db = sink.db := by
    obtain ⟨reopened, opens', -, same⟩ := openStore_coherent run.coherent aletheia rfl
    rw [opens, Except.ok.injEq] at opens'
    rw [opens', same]
  have run' := run.reopened opens
  obtain ⟨valid, ⟨node, found, visible, rfl⟩ | ⟨none_, ⟨target, found, allowed⟩, rfl⟩⟩ :=
    retracted_cases accepted
  · -- The event is there: the tombstone is all that is written.
    obtain ⟨one, pending⟩ : OneEvent env req.target (Shown aletheia sink.db) ∧
        Pending aletheia env req.target sink.db := by
      rcases recoverable.event with ⟨event, named, kind, only⟩ | unused
      · have one : ∀ record : GraphRecord, record.id = retractionEventId env req.target →
            (Shown aletheia sink.db record ↔ record = .node event) :=
          fun record under => (shown record).symm.trans (only record under)
        rw [findRetraction] at found
        split at found
        · next stored last =>
            obtain ⟨member, under⟩ := mem_of_lastEvent last
            have under' : (GraphRecord.node stored).id = retractionEventId env req.target :=
              of_decide_eq_true under
            exact ⟨⟨event, named, kind, one⟩, standing, ⟨_, (shown _).mp member, under'⟩,
              fun record isShown under => ⟨event, (one record under).mp isShown, kind⟩⟩
        · cases found
      · rw [findRetraction_of_unused fun record member => (unused record member).1] at found
        cases found
    have free : ¬ sink.db.Suppressed req.target := by
      rw [← any_deletes_iff shown, visible]
      exact Bool.false_ne_true
    intro count crashed wrote
    cases count with
    | zero =>
        obtain rfl := (Prod.mk.inj wrote).1
        obtain ⟨final, settles, after, rest⟩ := recovered_of_pending run accepting version valid
          eventId pending one free fun record _ => (shown record).symm
        rw [sameDb]
        exact ⟨final, after, settles, rest⟩
    | succ count =>
        obtain ⟨seq, last, wrote', stored, run''⟩ := write_tombstone run' accepting version
          (sameDb.symm ▸ standing) (sameDb.symm ▸ free)
        rw [sameDb] at stored
        obtain rfl : last = crashed := by
          rw [List.take_succ_cons, List.take_nil, writeRecords, wrote'] at wrote
          exact (Prod.mk.inj wrote).1
        obtain ⟨settles, after, rest⟩ := recovered_of_tombstone run'' accepting version valid
          eventId stored pending one fun record _ => (shown record).symm
        exact ⟨last.db, after, settles 0, rest⟩
  · -- A new retraction: the event is written first.
    have fresh : Fresh aletheia env req.target sink.db := by
      rcases recoverable.event with ⟨event, named, kind, only⟩ | unused
      · obtain ⟨node, isFound⟩ := findRetraction_of_events
          ⟨.node event, (only (.node event) named).mpr rfl, named⟩
          fun record member under => ⟨event, (only record under).mp member, kind⟩
        rw [none_] at isFound
        cases isFound
      · exact fun record isShown => unused record ((shown record).mpr isShown)
    have free := not_suppressed_of_allowed shown found allowed
    have refound : ∀ later, retractFromRecords env later before req =
        .ok (.retracted (newRetraction env later req)
          [.node (buildEventNode env req.target (newRetraction env later req)),
            .tombstone (retractionTombstone env req.target)]) := by
      intro later
      simp only [retractFromRecords, valid, none_, found, allowed]
    intro count crashed wrote
    cases count with
    | zero =>
        obtain rfl := (Prod.mk.inj wrote).1
        obtain ⟨first, last, seq, seq', log', written', wrote1, wrote2, -, stored, -, run'', pending,
          one, -, foreign⟩ := write_fresh run' accepting version (sameDb.symm ▸ fresh)
            (sameDb.symm ▸ standing) (sameDb.symm ▸ free) (clock 0)
        have ran : forgetCmd aletheia env (clock 0) req sink.db =
            (last.db, .ok (.retracted (newRetraction env (clock 0) req)
              [.node (buildEventNode env req.target (newRetraction env (clock 0) req)),
                .tombstone (retractionTombstone env req.target)])) := by
          simp only [forgetCmd, opens, read, refound, writeRecords, wrote1, wrote2]
        obtain ⟨settles, after, rest⟩ := recovered_of_tombstone run'' accepting version valid
          eventId stored pending one fun record other =>
            (foreign record other).trans (sameDb ▸ (shown record).symm)
        rw [sameDb]
        exact ⟨last.db, after, .again ran (settles 1), rest⟩
    | succ count =>
        obtain ⟨first, last, seq, seq', log', written', wrote1, wrote2, -, stored, run1, run'',
          pending, one, free1, foreign⟩ := write_fresh run' accepting version (sameDb.symm ▸ fresh)
            (sameDb.symm ▸ standing) (sameDb.symm ▸ free) now
        have same : ∀ record, ¬ Own env req.target record →
            (Shown aletheia first.db record ↔ record ∈ before) := fun record other =>
          (foreign record other).trans (sameDb ▸ (shown record).symm)
        cases count with
        | zero =>
            -- Only the event was written.
            obtain rfl : first = crashed := by
              rw [List.take_succ_cons, List.take_zero, writeRecords, wrote1] at wrote
              exact (Prod.mk.inj wrote).1
            obtain ⟨final, settles, after, rest⟩ := recovered_of_pending run1 accepting version
              valid eventId pending one free1 same
            exact ⟨final, after, settles, rest⟩
        | succ count =>
            obtain rfl : last = crashed := by
              rw [List.take_succ_cons, List.take_succ_cons, List.take_nil, writeRecords, wrote1]
                at wrote
              simp only [writeRecords, wrote2] at wrote
              exact (Prod.mk.inj wrote).1
            obtain ⟨settles, after, rest⟩ := recovered_of_tombstone run'' accepting version valid
              eventId stored pending one same
            exact ⟨last.db, after, settles 0, rest⟩

end Recovery

section Necessity

variable {aletheia : Aletheia} {env : ForgetEnv} {req : ForgetRequest} {clock : Nat → String}
variable {log written : List GraphRecord} {sink sink' : EmbeddedAletheiaSink}

/-- A verified write is a write. -/
theorem writeRecord_of_verified {record : GraphRecord} {outcome : WriteOutcome}
    (verified : sink.writeAndVerify aletheia record = (sink', .ok outcome)) :
    sink.writeRecord aletheia record = (sink', .ok outcome) := by
  unfold writeAndVerify at verified
  split at verified
  · cases verified
  · split at verified
    · cases verified
    · next next_ answer wrote =>
        split at verified
        · cases verified
        · obtain ⟨rfl, same⟩ := Prod.mk.inj verified
          rw [wrote, same]

/-- A list that is written is written record by record. -/
theorem writeRecords_cons_ok {record : GraphRecord} {rest : List GraphRecord}
    (wrote : writeRecords aletheia sink (record :: rest) = (sink', [])) :
    ∃ next outcome, sink.writeRecord aletheia record = (next, .ok outcome) ∧
      writeRecords aletheia next rest = (sink', []) := by
  rw [writeRecords] at wrote
  split at wrote
  · next next_ outcome verified =>
      exact ⟨next_, outcome, writeRecord_of_verified verified, wrote⟩
  · cases wrote

/-- Writing no record changes nothing. -/
theorem eq_of_writeRecords_nil (wrote : writeRecords aletheia sink [] = (sink', [])) :
    sink = sink' :=
  (Prod.mk.inj wrote).1

/-- A run that succeeds has written what it says, or nothing. -/
theorem forgetCmd_ok {now : String} {db final : Database} {outcome : ForgetOutcome}
    (ran : forgetCmd aletheia env now req db = (final, .ok outcome)) :
    ∃ opened records, openStore aletheia db = .ok opened ∧
      opened.readAllRecords aletheia = .ok records ∧
      retractFromRecords env now records req = .ok outcome ∧
      ((∃ event, outcome = .alreadyRetracted event ∧ final = db) ∨
        ∃ event generated last, outcome = .retracted event generated ∧
          writeRecords aletheia opened generated = (last, []) ∧ final = last.db) := by
  unfold forgetCmd at ran
  split at ran
  · cases ran
  · next opened opens =>
      split at ran
      · cases ran
      · next records read =>
          refine ⟨opened, records, opens, read, ?_⟩
          split at ran
          · cases ran
          · next event accepted =>
              obtain ⟨rfl, same⟩ := Prod.mk.inj ran
              obtain rfl := Except.ok.inj same
              exact ⟨accepted, Or.inl ⟨event, rfl, rfl⟩⟩
          · next event generated accepted =>
              split at ran
              · next last wrote =>
                  obtain ⟨rfl, same⟩ := Prod.mk.inj ran
                  obtain rfl := Except.ok.inj same
                  exact ⟨accepted, Or.inr ⟨event, generated, last, rfl, wrote, rfl⟩⟩
              · cases (Prod.mk.inj ran).2

/-- What the writes of a retraction store. -/
def Extra (env : ForgetEnv) (handle : String) (stored : Stored) : Prop :=
  (stored.revives (retractionEventId env handle) = true ∧
    ∃ event seq, stored = .node (.node event seq)) ∨
  ∃ seq, stored = preparedTombstone (retractionTombstone env handle) seq

/-- The store of a run that was extended by writes of the retraction. -/
def Extended (aletheia : Aletheia) (env : ForgetEnv) (handle : String) (db final : Database) :
    Prop :=
  ∃ log written sink extra, WriteRun aletheia log written sink ∧ sink.db = final ∧
    final = db ++ extra ∧ ∀ stored ∈ extra, Extra env handle stored

/-- The database may be extended step by step. -/
theorem Extended.trans {handle : String} {db next final : Database}
    (first : Extended aletheia env handle db next)
    (second : Extended aletheia env handle next final) :
    Extended aletheia env handle db final := by
  obtain ⟨-, -, -, extra, -, -, rfl, extras⟩ := first
  obtain ⟨log, written, sink, more, run, same, rfl, mores⟩ := second
  refine ⟨log, written, sink, extra ++ more, run, same, by rw [List.append_assoc], ?_⟩
  intro stored member
  rcases List.mem_append.mp member with old | new
  · exact extras stored old
  · exact mores stored new

/-- Writing the event extends the database. -/
theorem extended_of_event (run : WriteRun aletheia log written sink) {event : NodeRecord}
    {handle : String} (named : event.id = retractionEventId env handle)
    (untimed : event.temporal = none) {outcome : WriteOutcome}
    (wrote : sink.writeRecord aletheia (.node event) = (sink', .ok outcome)) :
    Extended aletheia env handle sink.db sink'.db ∧
      (∃ written', WriteRun aletheia (log ++ [.node event]) written' sink') ∧
      ¬ sink'.db.Suppressed (retractionEventId env handle) := by
  have run' : ∃ written', WriteRun aletheia (log ++ [.node event]) written' sink' := by
    cases outcome with
    | inserted => exact ⟨_, run.inserted wrote⟩
    | unchanged => exact ⟨_, run.unchanged wrote⟩
  obtain ⟨written', run'⟩ := run'
  refine ⟨?_, ⟨written', run'⟩, ?_⟩
  · cases accepts_of_writeRecord wrote with
    | unchanged known stored => exact ⟨_, _, _, [], run', rfl, by simp, by simp⟩
    | inserted known notStored creates =>
        cases creates with
        | node _ key read accepted =>
            refine ⟨_, _, _, _, run', rfl, rfl, fun stored member => ?_⟩
            rw [List.mem_singleton.mp member]
            refine Or.inl ⟨?_, _, _, rfl⟩
            simp [preparedNode, NodeRecord.stored, Stored.revives, Stored.plainNodeOf, named,
              untimed]
  · rw [suppressed_iff_exists]
    rintro ⟨tombstoneId, suppressed⟩
    rw [suppressedBy_iff run', retractedBy_append_singleton] at suppressed
    rcases suppressed with ⟨_, same, -⟩ | ⟨-, silent, -⟩
    · cases same
    · simp [GraphRecord.revives, named, untimed] at silent

/-- Writing the tombstone extends the database. -/
theorem extended_of_tombstone (run : WriteRun aletheia log written sink) {handle : String}
    {outcome : WriteOutcome}
    (wrote : sink.writeRecord aletheia (.tombstone (retractionTombstone env handle)) =
      (sink', .ok outcome)) :
    Extended aletheia env handle sink.db sink'.db ∧
      sink'.db.SuppressedBy (retractionTombstone env handle).id handle := by
  have run' : ∃ log' written', WriteRun aletheia log' written' sink' := by
    cases outcome with
    | inserted => exact ⟨_, _, run.inserted wrote⟩
    | unchanged => exact ⟨_, _, run.unchanged wrote⟩
  obtain ⟨log', written', run'⟩ := run'
  cases accepts_of_writeRecord wrote with
  | unchanged known stored =>
      exact ⟨⟨_, _, _, [], run', rfl, by simp, by simp⟩,
        suppressedBy_of_storedAndActive run.coherent stored⟩
  | inserted known notStored creates =>
      cases creates with
      | tombstone _ accepted =>
          refine ⟨⟨_, _, _, _, run', rfl, rfl, fun stored member => ?_⟩, ?_⟩
          · rw [List.mem_singleton.mp member]
            exact Or.inr ⟨_, rfl⟩
          · exact suppressedBy_append_tombstone.mpr (Or.inl ⟨rfl, rfl⟩)

/-- Opening the store again continues the run. -/
theorem run_of_opened (run : WriteRun aletheia log written sink)
    {opened : EmbeddedAletheiaSink} (opens : openStore aletheia sink.db = .ok opened) :
    WriteRun aletheia log written opened ∧ opened.db = sink.db := by
  obtain ⟨reopened, opens', -, same⟩ := openStore_coherent run.coherent aletheia rfl
  rw [opens, Except.ok.injEq] at opens'
  exact ⟨run.reopened opens, opens' ▸ same⟩

/-- A run that retracts extends the store, and leaves the tombstone in force. -/
theorem extended_of_retracted (run : WriteRun aletheia log written sink) {now : String}
    {next : Database} {event : RetractionEvent} {generated : List GraphRecord}
    (ran : forgetCmd aletheia env now req sink.db = (next, .ok (.retracted event generated))) :
    Extended aletheia env req.target sink.db next ∧
      next.SuppressedBy (retractionTombstone env req.target).id req.target := by
  obtain ⟨opened, records, opens, read, accepted, ⟨_, same, -⟩ | ⟨_, _, last, same, wrote, rfl⟩⟩ :=
    forgetCmd_ok ran
  · cases same
  · obtain ⟨rfl, rfl⟩ := ForgetOutcome.retracted.inj same
    obtain ⟨run', sameDb⟩ := run_of_opened run opens
    rw [← sameDb]
    obtain ⟨-, ⟨_, -, -, rfl⟩ | ⟨-, -, rfl⟩⟩ := retracted_cases accepted
    · obtain ⟨next, outcome, wrote, rest⟩ := writeRecords_cons_ok wrote
      rw [eq_of_writeRecords_nil rest] at wrote
      exact extended_of_tombstone run' wrote
    · obtain ⟨first, outcome, wrote, rest⟩ := writeRecords_cons_ok wrote
      obtain ⟨next, outcome', wrote', rest⟩ := writeRecords_cons_ok rest
      rw [eq_of_writeRecords_nil rest] at wrote'
      obtain ⟨extended, ⟨written', run1⟩, -⟩ := extended_of_event run' rfl rfl wrote
      obtain ⟨extended', hidden⟩ := extended_of_tombstone run1 wrote'
      exact ⟨extended.trans extended', hidden⟩

/-- Until the command reports the target, the store is extended by writes of the retraction. -/
theorem settles_extended {round : Nat} {db final : Database}
    (settles : Settles aletheia env req clock round db final)
    {log written : List GraphRecord} {sink : EmbeddedAletheiaSink}
    (run : WriteRun aletheia log written sink) (same : sink.db = db) :
    Extended aletheia env req.target db final ∧
      (db.SuppressedBy (retractionTombstone env req.target).id req.target →
        final.SuppressedBy (retractionTombstone env req.target).id req.target) := by
  induction settles generalizing log written sink with
  | settled ran =>
      obtain ⟨_, _, -, -, -, ⟨_, -, rfl⟩ | ⟨_, _, _, same', -, -⟩⟩ := forgetCmd_ok ran
      · exact ⟨⟨log, written, sink, [], run, same, by simp, by simp⟩, fun held => held⟩
      · cases same'
  | again ran more ih =>
      subst same
      obtain ⟨extended, hidden⟩ := extended_of_retracted run ran
      obtain ⟨log', written', next, -, run', same', -, -⟩ := id extended
      obtain ⟨extended', keeps⟩ := ih run' same'
      exact ⟨extended.trans extended', fun _ => keeps hidden⟩

/-- An extension suppresses no event. -/
theorem Extended.not_suppressed {handle : String} {db final : Database}
    (extended : Extended aletheia env handle db final)
    (apart : retractionEventId env handle ≠ handle)
    (free : ¬ db.Suppressed (retractionEventId env handle)) :
    ¬ final.Suppressed (retractionEventId env handle) := by
  obtain ⟨-, -, -, extra, -, -, rfl, extras⟩ := extended
  induction extra using List.reverseRecOn with
  | nil => rwa [List.append_nil]
  | append_singleton extra last ih =>
      have before := ih fun stored member => extras stored (List.mem_append_left _ member)
      rw [← List.append_assoc]
      rcases extras last (by simp) with ⟨revives, -⟩ | ⟨seq, rfl⟩
      · rw [suppressed_append_revival revives]
        exact fun both => before both.1
      · rw [suppressed_iff_exists]
        rintro ⟨tombstoneId, suppressed⟩
        rcases suppressedBy_append_tombstone.mp suppressed with ⟨-, deletes⟩ | ⟨-, held⟩
        · exact apart deletes.symm
        · exact before (suppressed_iff_exists.mpr ⟨tombstoneId, held⟩)

/-- So the last tombstone of the event stays where it was. -/
theorem Extended.lastIdx_event {handle : String} {db final : Database}
    (extended : Extended aletheia env handle db final)
    (apart : retractionEventId env handle ≠ (retractionTombstone env handle).id) :
    lastIdx (Stored.tombstoneOf (retractionEventId env handle)) final =
      lastIdx (Stored.tombstoneOf (retractionEventId env handle)) db := by
  obtain ⟨-, -, -, extra, -, -, rfl, extras⟩ := extended
  induction extra using List.reverseRecOn with
  | nil => rw [List.append_nil]
  | append_singleton extra last ih =>
      rw [← List.append_assoc, lastIdx_append_singleton,
        ih fun stored member => extras stored (List.mem_append_left _ member), if_neg]
      rcases extras last (by simp) with ⟨revives, -⟩ | ⟨seq, rfl⟩
      · rw [not_tombstone_of_revives revives]
        exact Bool.false_ne_true
      · simp [preparedTombstone, Stored.tombstoneOf, apart.symm]

/-- Under the event's ID the slice has retraction events only, where nothing else is lost. -/
theorem events_of_kept {handle : String} {db : Database} {before after : List GraphRecord}
    (shown : ∀ record, record ∈ before ↔ Shown aletheia db record)
    (forgotten : Forgotten env handle before after) (visible : ¬ db.Suppressed handle)
    (apart : retractionEventId env handle ≠ handle) {record : GraphRecord}
    (member : record ∈ before) (under : record.id = retractionEventId env handle) :
    ∃ node : NodeRecord, record = .node node ∧ node.kind = .retraction := by
  by_cases own : Own env handle record
  · cases record with
    | node node =>
        rcases own with named | ⟨-, kind⟩
        · exact absurd (under.symm.trans named) apart
        · exact ⟨node, rfl, kind⟩
    | edge edge => exact absurd (under.symm.trans own) apart
    | tombstone tombstone =>
        obtain ⟨_, _, -, -, suppressed⟩ := (shown _).mp member
        exact absurd (show db.Suppressed handle from own ▸ suppressed) visible
  · obtain ⟨event, -, kind, only⟩ := forgotten.event
    exact ⟨event, (only record under).mp ((forgotten.others record own).mpr member), kind⟩

/-- Whether a retraction is accepted does not depend on the time. -/
theorem retracted_later {now : String} {records generated : List GraphRecord}
    {event : RetractionEvent} (later : String)
    (accepted : retractFromRecords env now records req = .ok (.retracted event generated)) :
    ∃ event generated,
      retractFromRecords env later records req = .ok (.retracted event generated) := by
  obtain ⟨valid, ⟨node, found, visible, -⟩ | ⟨none_, ⟨target, found, allowed⟩, -⟩⟩ :=
    retracted_cases accepted
  · refine ⟨storedRetraction env req.target node,
      [.tombstone (retractionTombstone env req.target)], ?_⟩
    simp only [retractFromRecords, valid, found, visible, Bool.false_eq_true, if_false]
  · refine ⟨newRetraction env later req,
      [.node (buildEventNode env req.target (newRetraction env later req)),
        .tombstone (retractionTombstone env req.target)], ?_⟩
    simp only [retractFromRecords, valid, none_, found, allowed]

/-- The first run of a recovery retracts the target again. -/
theorem settles_first {opened : EmbeddedAletheiaSink} {db final : Database}
    (opens : openStore aletheia db = .ok opened) {before : List GraphRecord}
    (read : opened.readAllRecords aletheia = .ok before) {now : String} {event : RetractionEvent}
    {generated : List GraphRecord}
    (accepted : retractFromRecords env now before req = .ok (.retracted event generated))
    (settles : Settles aletheia env req clock 0 db final) :
    ∃ event generated last, forgetCmd aletheia env (clock 0) req db =
        (last.db, .ok (.retracted event generated)) ∧
      retractFromRecords env (clock 0) before req = .ok (.retracted event generated) ∧
      writeRecords aletheia opened generated = (last, []) ∧
      Settles aletheia env req clock 1 last.db final := by
  obtain ⟨again, writes, same⟩ := retracted_later (clock 0) accepted
  cases settles with
  | settled ran =>
      obtain ⟨opened', records, opens', read', reported, -⟩ := forgetCmd_ok ran
      rw [opens, Except.ok.injEq] at opens'
      rw [← opens', read, Except.ok.injEq] at read'
      rw [← read', same] at reported
      cases reported
  | again ran more =>
      obtain ⟨opened', records, opens', read', retracted, ⟨_, differs, -⟩ |
        ⟨_, _, last, outcome, wrote, stored⟩⟩ := forgetCmd_ok ran
      · cases differs
      · rw [opens, Except.ok.injEq] at opens'
        rw [← opens', read, Except.ok.injEq] at read'
        rw [← read'] at retracted
        rw [ForgetOutcome.retracted.injEq] at outcome
        rw [← opens', ← outcome.2] at wrote
        rw [stored] at ran more
        exact ⟨_, _, last, ran, retracted, wrote, more⟩

/-- What the store of a run reads as. -/
theorem shown_of_reads (run : WriteRun aletheia log written sink) {after : List GraphRecord}
    (reads : Reads aletheia sink.db after) (record : GraphRecord) :
    record ∈ after ↔ Shown aletheia sink.db record := by
  obtain ⟨opened, records, opens, -, -, read, shown⟩ := run_opens run
  obtain ⟨opened', opens', read'⟩ := reads
  rw [opens, Except.ok.injEq] at opens'
  rw [← opens', read, Except.ok.injEq] at read'
  exact read' ▸ shown record

/-- The event that is left tells the IDs apart. -/
theorem eventId_of_forgotten {handle : String} {final : Database} {before after : List GraphRecord}
    (shown : ∀ record, record ∈ after ↔ Shown aletheia final record)
    (forgotten : Forgotten env handle before after)
    (hidden : final.SuppressedBy (retractionTombstone env handle).id handle) :
    retractionEventId env handle ≠ handle ∧
      retractionEventId env handle ≠ (retractionTombstone env handle).id := by
  obtain ⟨kept, named, kind, only⟩ := forgotten.event
  refine ⟨fun same => ?_, fun same => ?_⟩
  · have unwritten := forgotten.gone _ ((only (.node kept) named).mpr rfl)
    simp [GraphRecord.writes, named, same] at unwritten
  · obtain ⟨tombstone, isShown, under, -⟩ := @shown_of_suppressedBy aletheia _ _ _ hidden
    have isEvent := (only (.tombstone tombstone) (under.trans same.symm)).mp
      ((shown _).mpr isShown)
    cases isEvent

/-- The tombstone in force is the only one that its ID showed. -/
theorem only_of_forgotten {handle : String} {final : Database} {before after : List GraphRecord}
    (shown : ∀ record, record ∈ after ↔ Shown aletheia final record)
    (forgotten : Forgotten env handle before after)
    (hidden : final.SuppressedBy (retractionTombstone env handle).id handle)
    {tombstone : TombstoneRecord} (member : .tombstone tombstone ∈ before)
    (named : tombstone.id = (retractionTombstone env handle).id) :
    tombstone.deletedId = handle := by
  by_contra differs
  have stays := (shown _).mp ((forgotten.others (.tombstone tombstone) differs).mpr member)
  obtain ⟨nodeId, seq, found, isLast, -⟩ := stays
  obtain ⟨lastId, record, seq', found', -, deletes, isLast', -⟩ := hidden
  rw [named, isLast', Option.some.injEq] at isLast
  rw [← isLast, found', Option.some.injEq, StoredNode.tombstone.injEq] at found
  exact differs (found.1 ▸ deletes)

/-- The last tombstone under the event's ID is not of the target, or it would be shown. -/
theorem silent_of_forgotten {handle : String} {db final : Database}
    {before after : List GraphRecord} (extended : Extended aletheia env handle db final)
    (shown : ∀ record, record ∈ after ↔ Shown aletheia final record)
    (forgotten : Forgotten env handle before after)
    (hidden : final.SuppressedBy (retractionTombstone env handle).id handle)
    {nodeId : Nat} {tombstone : TombstoneRecord} {seq : Option Nat}
    (found : db.getNode nodeId = some (.tombstone tombstone seq))
    (isLast : lastIdx (Stored.tombstoneOf (retractionEventId env handle)) db = some nodeId) :
    tombstone.deletedId ≠ handle := by
  intro deletes
  obtain ⟨kept, -, -, only⟩ := forgotten.event
  have named : tombstone.id = retractionEventId env handle := by
    obtain ⟨stored, at_last, isTombstone, -⟩ := lastIdx_eq_some_iff.mp isLast
    rw [getNode_eq_some_iff.mp found, Option.some.injEq] at at_last
    rw [← at_last] at isTombstone
    simpa [Stored.tombstoneOf] using isTombstone
  rw [← extended.lastIdx_event (eventId_of_forgotten shown forgotten hidden).2] at isLast
  obtain ⟨-, -, -, extra, -, -, rfl, -⟩ := extended
  have isShown : Shown aletheia (db ++ extra) (.tombstone tombstone) :=
    ⟨nodeId, seq, getNode_append_of_some found, named ▸ isLast, deletes ▸
      suppressed_iff_exists.mpr ⟨_, hidden⟩⟩
  have isEvent := (only (.tombstone tombstone) named).mp ((shown _).mpr isShown)
  cases isEvent

/-- A target whose retraction is accepted is visible. -/
theorem visible_of_accepted {db : Database} {records generated : List GraphRecord}
    (shown : ∀ record, record ∈ records ↔ Shown aletheia db record) {now : String}
    {event : RetractionEvent}
    (accepted : retractFromRecords env now records req = .ok (.retracted event generated)) :
    ¬ db.Suppressed req.target := by
  obtain ⟨-, ⟨_, -, undeleted, -⟩ | ⟨-, ⟨target, found, allowed⟩, -⟩⟩ := retracted_cases accepted
  · rw [← any_deletes_iff shown, undeleted]
    exact Bool.false_ne_true
  · exact not_suppressed_of_allowed shown found allowed

/-- A retraction that is found is recorded under the ID of its event. -/
theorem recorded_of_findRetraction {handle : String} {records : List GraphRecord}
    {node : NodeRecord} (found : findRetraction env handle records = some node) :
    ∃ record ∈ records, record.id = retractionEventId env handle := by
  rw [findRetraction] at found
  split at found
  · next stored last =>
      obtain ⟨member, under⟩ := mem_of_lastEvent last
      exact ⟨.node stored, member, of_decide_eq_true under⟩
  · cases found

/-- Where the command reports the target, it stays with that store. -/
theorem settled_of_done {round : Nat} {db final : Database}
    (done : ∀ later, ∃ event, forgetCmd aletheia env later req db =
      (db, .ok (.alreadyRetracted event)))
    (settles : Settles aletheia env req clock round db final) : db = final := by
  obtain ⟨event, reported⟩ := done (clock round)
  cases settles with
  | settled ran =>
      rw [reported] at ran
      exact (Prod.mk.inj ran).1
  | again ran more =>
      rw [reported] at ran
      cases (Prod.mk.inj ran).2

/-- What can be read back after the event was written could be before. -/
theorem readsBack_of_event {event : NodeRecord} {outcome : WriteOutcome} {id : String}
    (wrote : sink.writeRecord aletheia (.node event) = (sink', .ok outcome))
    (differs : event.id ≠ id) (readable : ReadsBack aletheia sink'.db id) :
    ReadsBack aletheia sink.db id := by
  cases accepts_of_writeRecord wrote with
  | unchanged known stored => exact readable
  | inserted known notStored creates =>
      cases creates with
      | node _ key read accepted =>
          rcases readable with ⟨nodeId, stored, found, named⟩ | edges
          · rcases getNode_append_singleton.mp found with before | ⟨-, isLast⟩
            · exact Or.inl ⟨nodeId, stored, before, named⟩
            · obtain rfl := Option.some.inj isLast
              exact absurd named differs
          · refine Or.inr fun edgeId edge found => edges edgeId edge ?_
            exact getEdge_append_singleton.mpr (Or.inl found)

/-- What recovery takes, from a recovery at the first crash point. -/
theorem recoverable_of_recovers (run : WriteRun aletheia log written sink)
    (accepting : ∀ db stored, aletheia.refuses db stored = none)
    {opened : EmbeddedAletheiaSink} (opens : openStore aletheia sink.db = .ok opened)
    {before : List GraphRecord} (read : opened.readAllRecords aletheia = .ok before)
    (shown : ∀ record, record ∈ before ↔ Shown aletheia sink.db record)
    (untimed : ∀ nodeId node seq, sink.db.getNode nodeId = some (.node node seq) →
      node.id = req.target → node.temporal = none)
    {now : String} {event : RetractionEvent} {generated : List GraphRecord}
    (accepted : retractFromRecords env now before req = .ok (.retracted event generated))
    (recovers : Recovers aletheia env req clock opened before generated) :
    Recoverable aletheia env req.target sink.db before := by
  obtain ⟨final, after, settles, reads, forgotten, -⟩ := recovers 0 opened rfl
  obtain ⟨run', sameDb⟩ := run_of_opened run opens
  rw [sameDb] at settles
  have visible := visible_of_accepted shown accepted
  obtain ⟨event0, generated0, last, ran, accepted0, wrote, more⟩ :=
    settles_first opens read accepted settles
  obtain ⟨valid, cases_⟩ := retracted_cases accepted0
  -- The store at the end is that of a run, with the tombstone in force.
  obtain ⟨extended, hidden0⟩ := extended_of_retracted run ran
  obtain ⟨_, _, next, _, run1, same1, -, -⟩ := id extended
  obtain ⟨extended', hidden⟩ := (settles_extended more run1 same1).imp_right fun keep => keep hidden0
  obtain ⟨_, _, ended, _, runEnd, sameEnd, -, -⟩ := id extended'
  have shownEnd : ∀ record, record ∈ after ↔ Shown aletheia final record := by
    rw [← sameEnd] at reads ⊢
    exact shown_of_reads runEnd reads
  have whole := extended.trans extended'
  have eventId := eventId_of_forgotten shownEnd forgotten hidden
  have only : ∀ tombstone : TombstoneRecord, .tombstone tombstone ∈ before →
      tombstone.id = (retractionTombstone env req.target).id → tombstone.deletedId = req.target :=
    fun _ member named => only_of_forgotten shownEnd forgotten hidden member named
  have silent : ∀ nodeId tombstone seq, sink.db.getNode nodeId = some (.tombstone tombstone seq) →
      lastIdx (Stored.tombstoneOf (retractionEventId env req.target)) sink.db = some nodeId →
      tombstone.deletedId ≠ req.target := fun _ _ _ found isLast =>
    silent_of_forgotten whole shownEnd forgotten hidden found isLast
  rcases cases_ with ⟨node, found, undeleted, rfl⟩ | ⟨none_, -, rfl⟩
  · -- The event was there: the tombstone is the one write.
    obtain ⟨sink2, outcome, wrote2, rest⟩ := writeRecords_cons_ok wrote
    obtain ⟨version, readable⟩ := readsBack_of_tombstone run'.coherent run'.reachable.known wrote2
    rw [sameDb] at readable
    have standing : Standing aletheia env req.target sink.db :=
      ⟨fun tombstone isShown => only tombstone ((shown _).mpr isShown), silent, readable, untimed⟩
    have recorded := recorded_of_findRetraction found
    have pending : Pending aletheia env req.target sink.db := by
      refine ⟨standing, ?_, fun record isShown under => ?_⟩
      · obtain ⟨record, member, under⟩ := recorded
        exact ⟨record, (shown _).mp member, under⟩
      · exact events_of_kept shown forgotten visible eventId.1 ((shown _).mpr isShown) under
    refine ⟨version, readable, only, eventId, silent, Or.inl ?_⟩
    obtain ⟨event1, seq, sink3, ran3, stored, run3, done⟩ :=
      settles_pending run accepting version valid eventId pending visible (clock 0)
    rw [ran, Prod.mk.injEq] at ran3
    obtain rfl := settled_of_done (fun later => ran3.1 ▸ done later) more
    obtain ⟨kept, named, kind, one⟩ := forgotten.event
    refine ⟨kept, named, kind, fun record under => (shown record).trans ?_⟩
    rw [← standing.shown_event_iff eventId under, ← stored, ← ran3.1, ← shownEnd]
    exact one record under
  · -- The event was written first.
    obtain ⟨sink1, outcome, wrote1, rest⟩ := writeRecords_cons_ok wrote
    obtain ⟨sink2, outcome2, wrote2, rest⟩ := writeRecords_cons_ok rest
    obtain ⟨extended1, ⟨written', run2⟩, free⟩ :=
      @extended_of_event aletheia env _ _ opened sink1 run' _ req.target rfl rfl _ wrote1
    obtain ⟨version, readable⟩ := readsBack_of_tombstone run2.coherent run2.reachable.known wrote2
    refine ⟨version, ?_, only, eventId, silent, Or.inr fun record member => ?_⟩
    · rw [← sameDb]
      exact readsBack_of_event wrote1 eventId.2 readable
    · have unused : ∀ record ∈ before, record.id ≠ retractionEventId env req.target := by
        intro record member under
        obtain ⟨node, found⟩ := findRetraction_of_events ⟨record, member, under⟩
          fun record member under => events_of_kept shown forgotten visible eventId.1 member under
        rw [none_] at found
        cases found
      refine ⟨unused record member, ?_⟩
      by_contra deletes
      rw [Bool.not_eq_false] at deletes
      -- A tombstone of the event's ID would be gone with the event's write.
      have foreign : ¬ Own env req.target record := by
        cases record with
        | node node => cases deletes
        | edge edge => cases deletes
        | tombstone tombstone =>
            have deletesEvent : tombstone.deletedId = retractionEventId env req.target := by
              simpa [GraphRecord.deletes] using deletes
            exact fun own => eventId.1 (deletesEvent.symm.trans own)
      have stays := (forgotten.others record foreign).mpr member
      have written2 := (extended_of_tombstone run2 wrote2).1
      rw [eq_of_writeRecords_nil rest] at written2
      refine (written2.trans extended').not_suppressed eventId.1 free ?_
      rw [← any_deletes_iff shownEnd, List.any_eq_true]
      exact ⟨record, stays, deletes⟩

end Necessity

section Main

variable {aletheia : Aletheia} {env : ForgetEnv} {req : ForgetRequest} {clock : Nat → String}
variable {log written : List GraphRecord} {sink opened : EmbeddedAletheiaSink}

/-- A target that no record of the log carries temporal metadata for has none in the store. -/
theorem untimed_of_log (run : WriteRun aletheia log written sink) {handle : String}
    (untimed : ∀ node, .node node ∈ log → node.id = handle → node.temporal = none)
    (nodeId : Nat) (node : NodeRecord) (seq : Option Nat)
    (found : sink.db.getNode nodeId = some (.node node seq)) (named : node.id = handle) :
    node.temporal = none := by
  have stored : .node node ∈ sink.db.map Stored.record :=
    List.mem_map.mpr ⟨_, List.mem_of_getElem? (getNode_eq_some_iff.mp found), rfl⟩
  rw [run.records, List.mem_map] at stored
  obtain ⟨record, member, same⟩ := stored
  cases record with
  | edge edge => cases same
  | tombstone tombstone => cases same
  | node written =>
      obtain rfl : written.stored = node := GraphRecord.node.inj same
      have plain := untimed written (run.sublist.subset member) named
      rw [NodeRecord.stored, plain]
      rfl

/-- A retraction repairs itself after a crash exactly if it is recoverable. -/
theorem forget_recovers_iff (run : WriteRun aletheia log written sink)
    (accepting : ∀ db stored, aletheia.refuses db stored = none)
    (untimed : ∀ node, .node node ∈ log → node.id = req.target → node.temporal = none)
    (opens : openStore aletheia sink.db = .ok opened) {before : List GraphRecord}
    (read : opened.readAllRecords aletheia = .ok before)
    {now : String} {event : RetractionEvent} {generated : List GraphRecord}
    (accepted : retractFromRecords env now before req = .ok (.retracted event generated)) :
    Recovers aletheia env req clock opened before generated ↔
      Recoverable aletheia env req.target sink.db before := by
  have shown := shown_of_reads run ⟨opened, opens, read⟩
  have plain := untimed_of_log run untimed
  constructor
  · exact recoverable_of_recovers run accepting opens read shown plain accepted
  · exact recovers_of_recoverable run accepting opens read shown plain accepted

/-- An observation whose handle spells a version of its domain that there is none of. -/
def otherVersion : GraphRecord :=
  .node { id := "agent_memory:v2:x", kind := .observation, schemaVersion := 1 }

def otherVersionSink : EmbeddedAletheiaSink :=
  ((runLog sampleAletheia {} [otherVersion]).map Prod.snd).getD {}

/-- Hashes that show what was hashed, and a redaction that finds nothing. -/
def sampleForgetEnv : ForgetEnv where
  parseFromRfc3339 _ := .error "premature end of input"
  blake3 parts := String.intercalate "." parts
  redactValue value := value
  isRedacted _ := false

def forgetOtherVersion : ForgetRequest where
  handle := "agent_memory:v2:x"
  reason := "wrong"
  retractedBy := "ada"

/-- The run that writes the observation of another version. -/
theorem otherVersion_run : WriteRun sampleAletheia [otherVersion] [otherVersion]
    otherVersionSink := by
  have written : (runLog sampleAletheia {} [otherVersion]).map Prod.fst = some [otherVersion] := by
    decide
  obtain ⟨⟨stored, sink⟩, ran, same⟩ := Option.map_eq_some_iff.mp written
  have sinks : otherVersionSink = sink := by rw [otherVersionSink, ran]; rfl
  rw [sinks]
  have run := WriteRun.start.runLog ran
  rwa [show stored = [otherVersion] from same] at run

/-- The observation reads back. -/
theorem otherVersion_reads : ∃ opened, openStore sampleAletheia otherVersionSink.db = .ok opened ∧
    opened.readAllRecords sampleAletheia = .ok [otherVersion] := by
  obtain ⟨opened, records, opens, -, -, read, -⟩ := run_opens otherVersion_run
  refine ⟨opened, opens, ?_⟩
  have reads : ((openStore sampleAletheia otherVersionSink.db).toOption.bind fun opened =>
      (opened.readAllRecords sampleAletheia).toOption) = some [otherVersion] := by
    decide
  simp only [opens, Except.toOption, Option.bind_some, read, Option.some.injEq] at reads
  rw [read, reads]

/-- Its retraction is accepted. -/
theorem otherVersion_accepted :
    ∃ event generated, retractFromRecords sampleForgetEnv "2026-01-01T00:00:00Z" [otherVersion]
      forgetOtherVersion = .ok (.retracted event generated) := by
  have valid : validateRequest sampleForgetEnv forgetOtherVersion = .ok () := by decide
  have none_ : findRetraction sampleForgetEnv forgetOtherVersion.target [otherVersion] = none := by
    decide
  have found : lastEvent (fun record => record.id = forgetOtherVersion.target) [otherVersion] =
      some otherVersion := by
    decide
  have allowed : refuseUnsupportedTarget otherVersion forgetOtherVersion.target = .ok () := by
    decide
  let event := newRetraction sampleForgetEnv "2026-01-01T00:00:00Z" forgetOtherVersion
  refine ⟨event, [.node (buildEventNode sampleForgetEnv forgetOtherVersion.target event),
    .tombstone (retractionTombstone sampleForgetEnv forgetOtherVersion.target)], ?_⟩
  simp only [retractFromRecords, valid, none_, found, allowed, event]

/-- It has no temporal fields. -/
theorem otherVersion_untimed (node : NodeRecord) (member : .node node ∈ [otherVersion])
    (_named : node.id = forgetOtherVersion.target) : node.temporal = none := by
  obtain rfl := GraphRecord.node.inj (List.mem_singleton.mp member)
  rfl

/-- The equivalence at this run. -/
theorem otherVersion_recovers_iff : ∃ opened event generated,
    openStore sampleAletheia otherVersionSink.db = .ok opened ∧
      opened.readAllRecords sampleAletheia = .ok [otherVersion] ∧
      retractFromRecords sampleForgetEnv "2026-01-01T00:00:00Z" [otherVersion]
        forgetOtherVersion = .ok (.retracted event generated) ∧
      (Recovers sampleAletheia sampleForgetEnv forgetOtherVersion
          (fun _ => "2026-01-01T00:00:00Z") opened [otherVersion] generated ↔
        Recoverable sampleAletheia sampleForgetEnv forgetOtherVersion.target otherVersionSink.db
          [otherVersion]) := by
  obtain ⟨opened, opens, read⟩ := otherVersion_reads
  obtain ⟨event, generated, accepted⟩ := otherVersion_accepted
  exact ⟨opened, event, generated, opens, read, accepted,
    forget_recovers_iff otherVersion_run (fun _ _ => rfl) otherVersion_untimed opens read accepted⟩

/-- Its tombstone is never written, whenever the command is run. -/
theorem otherVersion_not_recovers : ∃ opened event generated,
    openStore sampleAletheia otherVersionSink.db = .ok opened ∧
      opened.readAllRecords sampleAletheia = .ok [otherVersion] ∧
      retractFromRecords sampleForgetEnv "2026-01-01T00:00:00Z" [otherVersion]
        forgetOtherVersion = .ok (.retracted event generated) ∧
      ∀ clock, ¬ Recovers sampleAletheia sampleForgetEnv forgetOtherVersion clock opened
        [otherVersion] generated := by
  obtain ⟨opened, opens, read⟩ := otherVersion_reads
  obtain ⟨event, generated, accepted⟩ := otherVersion_accepted
  refine ⟨opened, event, generated, opens, read, accepted, fun clock recovers => ?_⟩
  have shown := shown_of_reads otherVersion_run ⟨opened, opens, read⟩
  have plain := untimed_of_log otherVersion_run otherVersion_untimed
  have recoverable := recoverable_of_recovers otherVersion_run (fun _ _ => rfl) opens read shown
    plain accepted recovers
  have unknown : ¬ KnownVersion
      (.tombstone (retractionTombstone sampleForgetEnv forgetOtherVersion.target)) := by
    decide
  exact unknown recoverable.version

end Main

end Forget

end Egregore
