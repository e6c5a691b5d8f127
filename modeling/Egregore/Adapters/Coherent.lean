import Egregore.Adapters.EmbeddedWrite
import Egregore.Base.Recency

/-!
# Index coherence

What the sink's indexes say of its database, kept by every accepted write. The
answers the sink gives are then functions of the database alone. `Accepts.coherent`
is the step lemma: it follows the three ways of creating a record, by what each of
them appends to the database and notes in the indexes.
-/

namespace Egregore

open Base

namespace Stored

/-- A graph node of a stable ID without temporal metadata. -/
def plainNodeOf (id : String) : Stored → Bool
  | .node (.node record _) => record.id = id && record.temporal.isNone
  | _ => false

/-- A tombstone with a record ID of its own. -/
def tombstoneOf (id : String) : Stored → Bool
  | .node (.tombstone record _) => record.id = id
  | _ => false

def edgeOf (id : String) : Stored → Bool
  | .edge stored => stored.record.id = id
  | _ => false

/-- A write that outlives an earlier tombstone of the ID. -/
def revives (id : String) (stored : Stored) : Bool := stored.plainNodeOf id || stored.edgeOf id

end Stored

namespace Database

variable (db : Database)

/-- The sequence number of the object with an id. -/
def seqAt (id : Nat) : Option Nat := db[id]?.bind Stored.seq

/-- Every object carries a sequence number, and later objects carry greater ones. -/
structure Stamped : Prop where
  all : ∀ stored ∈ db, stored.seq.isSome
  ascending : db.Pairwise fun stored later => ∀ seq ∈ stored.seq, ∀ next ∈ later.seq, seq < next

variable {db}

/-- What is appended to a database leaves the nodes that it had. -/
theorem getNode_append_left {rest : Database} {id : Nat} (inside : id < db.length) :
    getNode (db ++ rest) id = db.getNode id := by
  rw [getNode, List.getElem?_append_left inside, getNode]

/-- It leaves the edges that it had. -/
theorem getEdge_append_left {rest : Database} {id : Nat} (inside : id < db.length) :
    getEdge (db ++ rest) id = db.getEdge id := by
  rw [getEdge, List.getElem?_append_left inside, getEdge]

/-- The new entry is found at the end when it is a node. -/
@[simp] theorem getNode_append_new (stored : Stored) :
    getNode (db ++ [stored]) db.length = stored.node? := by
  simp [getNode]

/-- The new entry is found at the end when it is an edge. -/
@[simp] theorem getEdge_append_new (stored : Stored) :
    getEdge (db ++ [stored]) db.length = stored.edge? := by
  simp [getEdge]

/-- A node is found where the database has one. -/
theorem getNode_eq_some_iff {id : Nat} {stored : StoredNode} :
    db.getNode id = some stored ↔ db[id]? = some (.node stored) := by
  unfold getNode
  cases db[id]? with
  | none => simp
  | some object => cases object <;> simp [Stored.node?]

/-- An edge is found where the database has one. -/
theorem getEdge_eq_some_iff {id : Nat} {stored : StoredEdge} :
    db.getEdge id = some stored ↔ db[id]? = some (.edge stored) := by
  unfold getEdge
  cases db[id]? with
  | none => simp
  | some object => cases object <;> simp [Stored.edge?]

/-- So the position of a node is inside. -/
theorem lt_length_of_getNode {id : Nat} {stored : StoredNode} (found : db.getNode id = some stored) :
    id < db.length :=
  (List.getElem?_eq_some_iff.mp (getNode_eq_some_iff.mp found)).1

/-- So the position of an edge is inside. -/
theorem lt_length_of_getEdge {id : Nat} {stored : StoredEdge} (found : db.getEdge id = some stored) :
    id < db.length :=
  (List.getElem?_eq_some_iff.mp (getEdge_eq_some_iff.mp found)).1

/-- After an append the nodes are the old ones and the new entry. -/
theorem getNode_append_singleton {id : Nat} {last : Stored} {stored : StoredNode} :
    getNode (db ++ [last]) id = some stored ↔
      db.getNode id = some stored ∨ id = db.length ∧ last.node? = some stored := by
  constructor
  · intro found
    have bound := lt_length_of_getNode found
    rw [List.length_append, List.length_singleton] at bound
    rcases Nat.lt_or_ge id db.length with inside | more
    · rw [getNode_append_left inside] at found
      exact Or.inl found
    · obtain rfl : id = db.length := by omega
      rw [getNode_append_new] at found
      exact Or.inr ⟨rfl, found⟩
  · rintro (found | ⟨rfl, found⟩)
    · rw [getNode_append_left (lt_length_of_getNode found), found]
    · rw [getNode_append_new, found]

/-- After an append the edges are the old ones and the new entry. -/
theorem getEdge_append_singleton {id : Nat} {last : Stored} {stored : StoredEdge} :
    getEdge (db ++ [last]) id = some stored ↔
      db.getEdge id = some stored ∨ id = db.length ∧ last.edge? = some stored := by
  constructor
  · intro found
    have bound := lt_length_of_getEdge found
    rw [List.length_append, List.length_singleton] at bound
    rcases Nat.lt_or_ge id db.length with inside | more
    · rw [getEdge_append_left inside] at found
      exact Or.inl found
    · obtain rfl : id = db.length := by omega
      rw [getEdge_append_new] at found
      exact Or.inr ⟨rfl, found⟩
  · rintro (found | ⟨rfl, found⟩)
    · rw [getEdge_append_left (lt_length_of_getEdge found), found]
    · rw [getEdge_append_new, found]

/-- A node that was there stays as it was. -/
theorem getNode_append_of_some {rest : Database} {id : Nat} {stored : StoredNode}
    (found : db.getNode id = some stored) : getNode (db ++ rest) id = some stored := by
  rw [getNode_append_left (lt_length_of_getNode found), found]

/-- The nodes of a scan are those found at their positions. -/
@[simp] theorem mem_nodeIds {id : Nat} : id ∈ db.nodeIds ↔ (db.getNode id).isSome := by
  simp only [nodeIds, List.mem_filter, List.mem_range, and_iff_right_iff_imp]
  intro found
  obtain ⟨stored, found⟩ := Option.isSome_iff_exists.mp found
  exact lt_length_of_getNode found

/-- The outgoing edges of a node start there. -/
theorem mem_outgoing {id node : Nat} :
    id ∈ db.outgoing node ↔ ∃ edge, db.getEdge id = some edge ∧ edge.source = node := by
  simp only [outgoing, List.mem_filter, List.mem_range, Option.any_eq_true, decide_eq_true_eq]
  constructor
  · exact fun ⟨_, found⟩ => found
  · rintro ⟨edge, found, rfl⟩
    exact ⟨lt_length_of_getEdge found, edge, found, rfl⟩

/-- A new node comes last in the scan. -/
theorem nodeIds_append_singleton (stored : Stored) :
    nodeIds (db ++ [stored]) =
      db.nodeIds ++ if stored.node?.isSome then [db.length] else [] := by
  unfold nodeIds
  rw [List.length_append, List.length_singleton, List.range_succ, List.filter_append]
  congr 1
  · apply List.filter_congr
    intro id member
    rw [getNode_append_left (List.mem_range.mp member)]
  · simp only [List.filter_cons, getNode_append_new, List.filter_nil]

/-- Old entries keep their sequence numbers. -/
theorem seqAt_append_left {rest : Database} {id : Nat} (inside : id < db.length) :
    seqAt (db ++ rest) id = db.seqAt id := by
  rw [seqAt, List.getElem?_append_left inside, seqAt]

/-- The new entry has its own sequence number. -/
@[simp] theorem seqAt_append_new (stored : Stored) :
    seqAt (db ++ [stored]) db.length = stored.seq := by
  simp [seqAt]

/-- Sequence numbers order positions. -/
theorem Stamped.seqAt_lt_iff (stamped : db.Stamped) {id other seq next : Nat}
    (at_id : db.seqAt id = some seq) (at_other : db.seqAt other = some next) :
    seq < next ↔ id < other := by
  have ordered : ∀ {first second early late : Nat}, db.seqAt first = some early →
      db.seqAt second = some late → first < second → early < late := by
    intro first second early late at_first at_second less
    obtain ⟨stored, found, seq⟩ := Option.bind_eq_some_iff.mp at_first
    obtain ⟨later, found', seq'⟩ := Option.bind_eq_some_iff.mp at_second
    obtain ⟨bound, rfl⟩ := List.getElem?_eq_some_iff.mp found
    obtain ⟨bound', rfl⟩ := List.getElem?_eq_some_iff.mp found'
    exact List.pairwise_iff_getElem.mp stamped.ascending first second bound bound' less
      early seq late seq'
  constructor
  · intro less
    rcases Nat.lt_trichotomy id other with before | same | after
    · exact before
    · subst same
      rw [at_id, Option.some.injEq] at at_other
      omega
    · have := ordered at_other at_id after
      omega
  · exact ordered at_id at_other

/-- In a stamped database every entry has a number. -/
theorem Stamped.exists_seqAt (stamped : db.Stamped) {id : Nat} (inside : id < db.length) :
    ∃ seq, db.seqAt id = some seq := by
  have found := List.getElem?_eq_getElem inside
  obtain ⟨seq, seq_eq⟩ := Option.isSome_iff_exists.mp
    (stamped.all db[id] (List.getElem_mem inside))
  exact ⟨seq, by rw [seqAt, found, Option.bind_some, seq_eq]⟩

/-- An entry with a higher number keeps the database stamped. -/
theorem Stamped.append {stored : Stored} {seq : Nat} (stamped : db.Stamped)
    (stamp : stored.seq = some seq) (above : ∀ earlier ∈ db, ∀ old ∈ earlier.seq, old < seq) :
    Stamped (db ++ [stored]) where
  all := by
    intro other member
    rcases List.mem_append.mp member with before | last
    · exact stamped.all other before
    · rw [List.mem_singleton.mp last, stamp]
      rfl
  ascending := by
    refine List.pairwise_append.mpr ⟨stamped.ascending, List.pairwise_singleton _ _, ?_⟩
    intro earlier member later isLast old old_seq next next_seq
    rw [List.mem_singleton.mp isLast, stamp] at next_seq
    obtain rfl := Option.some.inj next_seq
    exact above earlier member old old_seq

end Database

section Keys

variable (env : Aletheia)

/-- What the lookup index holds of a physical node. -/
def indexedNode (id : Nat) : StoredNode → Option IndexedNode
  | .node record _ =>
      match temporalReadKeyFromProperties env record.id record.temporal with
      | .ok key => some ⟨record.id, id, key⟩
      | .error _ => none
  | .tombstone _ _ => none

/-- What the lookup index holds of a database, node by node. -/
def indexedNodes (db : Database) (ids : List Nat) : List IndexedNode :=
  ids.filterMap fun id => (db.getNode id).bind (indexedNode env id)

variable {env}

/-- Storing the temporal fields does not change the key they read as. -/
@[simp] theorem temporalReadKeyFromProperties_stored (recordId : String)
    (temporal : Option TemporalMetadata) :
    temporalReadKeyFromProperties env recordId (temporal.map TemporalMetadata.stored) =
      temporalReadKeyFromProperties env recordId temporal := by
  cases temporal <;> rfl

/-- Keys depend on the timestamp reader only. -/
theorem temporalReadKeyFromProperties_congr {other : Aletheia}
    (sameReader : other.parseFromRfc3339 = env.parseFromRfc3339) (recordId : String)
    (temporal : Option TemporalMetadata) :
    temporalReadKeyFromProperties other recordId temporal =
      temporalReadKeyFromProperties env recordId temporal := by
  cases temporal with
  | none => rfl
  | some temporal =>
      simp only [temporalReadKeyFromProperties, requiredRfc3339Property, sameReader]

/-- The lookup index of a database depends on the timestamp reader only. -/
theorem indexedNodes_congr {other : Aletheia}
    (sameReader : other.parseFromRfc3339 = env.parseFromRfc3339) (db : Database) (ids : List Nat) :
    indexedNodes other db ids = indexedNodes env db ids := by
  apply List.filterMap_congr
  intro id _
  congr 1
  funext stored
  cases stored with
  | node record seq => simp only [indexedNode, temporalReadKeyFromProperties_congr sameReader]
  | tombstone record seq => rfl

/-- A record without temporal fields has no temporal key, and only such a record. -/
theorem temporalKey_none_iff {recordId : String} {temporal : Option TemporalMetadata}
    {key : Option TemporalReadKey}
    (read : temporalReadKeyFromProperties env recordId temporal = .ok key) :
    key = none ↔ temporal = none := by
  cases temporal with
  | none =>
      obtain rfl : none = key := by simpa [temporalReadKeyFromProperties] using read
      simp
  | some temporal =>
      simp only [temporalReadKeyFromProperties, bind, Except.bind] at read
      split at read
      · contradiction
      · split at read
        · contradiction
        · obtain rfl := Except.ok.inj read
          simp

end Keys

open Database

/-- The indexes of a sink agree with its database. -/
structure Coherent (env : Aletheia) (sink : EmbeddedAletheiaSink) : Prop where
  keyed : ∀ id record seq, sink.db.getNode id = some (.node record seq) →
    ∃ key, temporalReadKeyFromProperties env record.id record.temporal = .ok key
  lookup : ∃ ids, sink.nodeLookup.Describes (indexedNodes env sink.db ids) ∧
    ids.Perm sink.db.nodeIds
  tombstoneIds : ∀ id, sink.tombstoneIds[id]? = lastIdx (Stored.tombstoneOf id) sink.db
  tombstoneSeqs : ∀ (id : String) nodeId, sink.tombstoneIds[id]? = some nodeId →
    sink.tombstoneNodeSeqs[nodeId]? = sink.db.seqAt nodeId
  edgeSeqs : ∀ id, sink.edgeSeqs[id]? =
    (lastIdx (Stored.edgeOf id) sink.db).bind sink.db.seqAt
  legacy : ∀ id : String, sink.legacyEdgeCounts[id]? = none
  stamped : sink.db.Stamped
  bounded : ∀ stored ∈ sink.db, ∀ seq ∈ stored.seq, seq ≤ sink.writeSeq
  ends : ∀ id edge, sink.db.getEdge id = some edge →
    (sink.db.getNode edge.source).isSome ∧ (sink.db.getNode edge.target).isSome

section Append

variable {env : Aletheia} {db : Database}

/-- The index of old nodes does not see what is appended. -/
theorem indexedNodes_append_left {rest : Database} {ids : List Nat}
    (inside : ∀ id ∈ ids, id < db.length) :
    indexedNodes env (db ++ rest) ids = indexedNodes env db ids := by
  apply List.filterMap_congr
  intro id member
  rw [getNode_append_left (inside id member)]

/-- The order of the scan is the order of the index. -/
theorem indexedNodes_perm {ids others : List Nat} (same : ids.Perm others) :
    (indexedNodes env db ids).Perm (indexedNodes env db others) :=
  same.filterMap _

/-- An entry of the index is of a stored node with its ID and its key. -/
theorem nodeId_of_mem_indexedNodes {ids : List Nat} {entry : IndexedNode}
    (member : entry ∈ indexedNodes env db ids) :
    entry.nodeId ∈ ids ∧ ∃ record seq, db.getNode entry.nodeId = some (.node record seq) ∧
      record.id = entry.recordId ∧
      temporalReadKeyFromProperties env record.id record.temporal = .ok entry.temporalKey := by
  obtain ⟨id, inside, found⟩ := List.mem_filterMap.mp member
  obtain ⟨stored, at_id, entered⟩ := Option.bind_eq_some_iff.mp found
  cases stored with
  | tombstone record seq => simp [indexedNode] at entered
  | node record seq =>
      simp only [indexedNode] at entered
      cases read : temporalReadKeyFromProperties env record.id record.temporal with
      | error fault => simp [read] at entered
      | ok key =>
          obtain rfl := Option.some.inj ((by simpa [read] using entered) :
            some (⟨record.id, id, key⟩ : IndexedNode) = some entry)
          exact ⟨inside, record, seq, at_id, rfl, read⟩

end Append

namespace EmbeddedAletheiaSink

section Steps

variable {env : Aletheia} {sink sink' : EmbeddedAletheiaSink}

/-- The sink after a node was created and indexed under `key`. -/
def withNode (sink : EmbeddedAletheiaSink) (record : NodeRecord) (key : Option TemporalReadKey) :
    EmbeddedAletheiaSink :=
  { sink with
    db := sink.db ++ [preparedNode record (sink.writeSeq + 1)]
    nodeLookup := sink.nodeLookup.insert record.id sink.db.length key
    recordHandles := sink.recordHandles.insert record.id (.node sink.db.length)
    writeSeq := sink.writeSeq + 1 }

/-- The sink after a tombstone was created. -/
def withTombstone (sink : EmbeddedAletheiaSink) (record : TombstoneRecord) :
    EmbeddedAletheiaSink :=
  { sink with
    db := sink.db ++ [preparedTombstone record (sink.writeSeq + 1)]
    tombstoneIds := sink.tombstoneIds.insert record.id sink.db.length
    tombstoneNodeSeqs := sink.tombstoneNodeSeqs.insert sink.db.length (sink.writeSeq + 1)
    recordHandles := sink.recordHandles.insert record.id (.tombstone sink.db.length)
    writeSeq := sink.writeSeq + 1 }

/-- The sink after an edge was created between two physical nodes. -/
def withEdge (sink : EmbeddedAletheiaSink) (record : EdgeRecord) (source target : Nat) :
    EmbeddedAletheiaSink :=
  { sink with
    db := sink.db ++ [preparedEdge record source target (sink.writeSeq + 1)]
    recordHandles := sink.recordHandles.insert record.id (.edge sink.db.length)
    edgeSeqs := sink.edgeSeqs.insert record.id (sink.writeSeq + 1)
    writeSeq := sink.writeSeq + 1 }

/-- Everything a physical write can do. -/
inductive Creates (env : Aletheia) (sink : EmbeddedAletheiaSink) :
    GraphRecord → EmbeddedAletheiaSink → Prop where
  | node (record : NodeRecord) (key : Option TemporalReadKey)
      (read : temporalReadKeyFromProperties env record.id record.temporal = .ok key)
      (accepted : env.refuses sink.db (preparedNode record (sink.writeSeq + 1)) = none) :
      Creates env sink (.node record) (sink.withNode record key)
  | tombstone (record : TombstoneRecord)
      (accepted : env.refuses sink.db (preparedTombstone record (sink.writeSeq + 1)) = none) :
      Creates env sink (.tombstone record) (sink.withTombstone record)
  | edge (record : EdgeRecord) (source target : Nat)
      (from_ : sink.resolveNodeId record.id record.source record.temporal "source" = .ok source)
      (to_ : sink.resolveNodeId record.id record.target record.temporal "target" = .ok target)
      (accepted : env.refuses sink.db (preparedEdge record source target (sink.writeSeq + 1)) =
        none) :
      Creates env sink (.edge record) (sink.withEdge record source target)

/-- A created node is inserted at the end with the next number. -/
theorem createNode_eq_ok {record : NodeRecord} {outcome : WriteOutcome}
    (wrote : sink.createNode env record = (sink', .ok outcome)) :
    outcome = .inserted ∧ Creates env sink (.node record) sink' := by
  unfold createNode prepare create at wrote
  cases refusal : env.refuses sink.db (preparedNode record (sink.writeSeq + 1)) with
  | some message => simp [refusal] at wrote
  | none =>
      simp only [refusal, bookkeepNodeWrite, getNode_append_new] at wrote
      simp only [preparedNode, Stored.node?, StoredNode.record, GraphRecord.id, NodeRecord.stored,
        GraphRecord.temporal, ne_eq, not_true_eq_false, if_false,
        temporalReadKeyFromProperties_stored] at wrote
      cases read : temporalReadKeyFromProperties env record.id record.temporal with
      | error fault => simp [read, reported] at wrote
      | ok key =>
          simp only [read, reported, Prod.mk.injEq, Except.ok.injEq] at wrote
          obtain ⟨rfl, rfl⟩ := wrote
          exact ⟨rfl, .node record key read refusal⟩

/-- So is a created tombstone. -/
theorem createTombstone_eq_ok {record : TombstoneRecord} {outcome : WriteOutcome}
    (wrote : sink.createTombstone env record = (sink', .ok outcome)) :
    outcome = .inserted ∧ Creates env sink (.tombstone record) sink' := by
  unfold createTombstone prepare create at wrote
  cases refusal : env.refuses sink.db (preparedTombstone record (sink.writeSeq + 1)) with
  | some message => simp [refusal] at wrote
  | none =>
      simp only [refusal, bookkeepTombstoneWrite, getNode_append_new] at wrote
      simp only [preparedTombstone, Stored.node?, StoredNode.record, GraphRecord.id, ne_eq,
        not_true_eq_false, if_false, reported, Prod.mk.injEq, Except.ok.injEq] at wrote
      obtain ⟨rfl, rfl⟩ := wrote
      exact ⟨rfl, .tombstone record refusal⟩

/-- So is a created edge. -/
theorem createEdge_eq_ok {record : EdgeRecord} {outcome : WriteOutcome}
    (wrote : sink.createEdge env record = (sink', .ok outcome)) :
    outcome = .inserted ∧ Creates env sink (.edge record) sink' := by
  unfold createEdge at wrote
  cases from_ : sink.resolveNodeId record.id record.source record.temporal "source" with
  | error fault => simp [from_] at wrote
  | ok source =>
      cases to_ : sink.resolveNodeId record.id record.target record.temporal "target" with
      | error fault => simp [from_, to_] at wrote
      | ok target =>
          simp only [from_, to_] at wrote
          unfold createResolvedEdge prepare create at wrote
          cases refusal :
              env.refuses sink.db (preparedEdge record source target (sink.writeSeq + 1)) with
          | some message => simp [refusal] at wrote
          | none =>
              simp only [refusal, bookkeepEdgeWrite, getEdge_append_new] at wrote
              simp only [preparedEdge, Stored.edge?, ne_eq, not_true_eq_false, or_self, if_false,
                reported, Prod.mk.injEq, Except.ok.injEq] at wrote
              obtain ⟨rfl, rfl⟩ := wrote
              exact ⟨rfl, .edge record source target from_ to_ refusal⟩

/-- The no-op guard of a write. -/
def guardOf (env : Aletheia) (sink : EmbeddedAletheiaSink) : GraphRecord → Except AdapterError Bool
  | .tombstone record => sink.storedAndActive env record
  | record => sink.storedAndLive env record

/-- An accepted write either finds its record stored or creates it. -/
inductive Accepts (env : Aletheia) (sink : EmbeddedAletheiaSink) (record : GraphRecord) :
    EmbeddedAletheiaSink → WriteOutcome → Prop where
  | unchanged (known : KnownVersion record) (stored : sink.guardOf env record = .ok true) :
      Accepts env sink record sink .unchanged
  | inserted {sink' : EmbeddedAletheiaSink} (known : KnownVersion record)
      (notStored : sink.guardOf env record = .ok false) (creates : Creates env sink record sink') :
      Accepts env sink record sink' .inserted

/-- The one description of a successful `write_record`. -/
theorem accepts_of_writeRecord {record : GraphRecord} {outcome : WriteOutcome}
    (wrote : sink.writeRecord env record = (sink', .ok outcome)) :
    Accepts env sink record sink' outcome := by
  have guarded : ∀ {guard write}, sink.unlessStored guard write = (sink', .ok outcome) →
      guard = .ok true ∧ sink' = sink ∧ outcome = .unchanged ∨
        guard = .ok false ∧ write = (sink', .ok outcome) := by
    intro guard write wrote
    match guard, wrote with
    | .error fault, wrote => simp [unlessStored] at wrote
    | .ok true, wrote =>
        simp only [unlessStored, Prod.mk.injEq, Except.ok.injEq] at wrote
        exact Or.inl ⟨rfl, wrote.1.symm, wrote.2.symm⟩
    | .ok false, wrote => exact Or.inr ⟨rfl, wrote⟩
  unfold writeRecord at wrote
  cases version : validateAdapterRecordVersion record with
  | error fault => simp [version] at wrote
  | ok accepted =>
      have known := validateAdapterRecordVersion_eq_ok_iff.mp version
      simp only [version] at wrote
      cases record with
      | node record =>
          rcases guarded wrote with ⟨guard, rfl, rfl⟩ | ⟨guard, created⟩
          · exact .unchanged known guard
          · obtain ⟨rfl, creates⟩ := createNode_eq_ok created
            exact .inserted known guard creates
      | edge record =>
          rcases guarded wrote with ⟨guard, rfl, rfl⟩ | ⟨guard, created⟩
          · exact .unchanged known guard
          · obtain ⟨rfl, creates⟩ := createEdge_eq_ok created
            exact .inserted known guard creates
      | tombstone record =>
          rcases guarded wrote with ⟨guard, rfl, rfl⟩ | ⟨guard, created⟩
          · exact .unchanged known guard
          · obtain ⟨rfl, creates⟩ := createTombstone_eq_ok created
            exact .inserted known guard creates

end Steps

section Invariant

variable {env : Aletheia} {sink sink' : EmbeddedAletheiaSink}

/-- An endpoint resolves to a physical node. -/
theorem isSome_of_resolveNodeId (coherent : Coherent env sink) {edgeId recordId endpoint : String}
    {temporal : Option TemporalMetadata} {nodeId : Nat}
    (resolved : sink.resolveNodeId edgeId recordId temporal endpoint = .ok nodeId) :
    (sink.db.getNode nodeId).isSome := by
  obtain ⟨ids, described, -⟩ := coherent.lookup
  have candidate : ∀ found ∈ candidatesOf recordId (indexedNodes env sink.db ids),
      (sink.db.getNode found.storageId).isSome := by
    intro found member
    simp only [candidatesOf, List.mem_map, List.mem_filter] at member
    obtain ⟨entry, ⟨member, -⟩, rfl⟩ := member
    obtain ⟨-, record, seq, at_id, -⟩ := nodeId_of_mem_indexedNodes member
    simp [at_id]
  have best : ∀ {kept : ReadBackCandidate → Bool} {nodeId : Nat},
      (bestOf candidateOrder ((candidatesOf recordId (indexedNodes env sink.db ids)).filter
        kept)).map ReadBackCandidate.storageId = some nodeId →
      (sink.db.getNode nodeId).isSome := by
    intro kept nodeId found
    obtain ⟨winner, isBest, rfl⟩ := Option.map_eq_some_iff.mp found
    exact candidate winner (List.mem_filter.mp (isBest_of_bestOf isBest).mem).1
  unfold resolveNodeId NodeLookupIndex.endpointNode at resolved
  cases commit : (temporal.map TemporalMetadata.gitCommit).bind
      (sink.nodeLookup.nodeForCommit recordId) with
  | some found =>
      simp only [commit, Except.ok.injEq] at resolved
      subst resolved
      obtain ⟨gitCommit, -, found⟩ := Option.bind_eq_some_iff.mp commit
      rw [described.nodeForCommit_eq] at found
      exact best found
  | none =>
      simp only [commit] at resolved
      cases plain : sink.nodeLookup.nonTemporal[recordId]? with
      | some found =>
          simp only [plain, Except.ok.injEq] at resolved
          subst resolved
          rw [described.nonTemporal] at plain
          exact best plain
      | none =>
          simp only [plain] at resolved
          rcases counted : sink.nodeLookup.candidateCounts.getD recordId 0 with _ | _ | count
          · simp [counted] at resolved
          · cases single : sink.nodeLookup.singleCandidate[recordId]? with
            | none => simp [counted, single] at resolved
            | some found =>
                simp only [counted, single, Except.ok.injEq] at resolved
                subst resolved
                rw [described.single] at single
                obtain ⟨first, isFirst, rfl⟩ := Option.map_eq_some_iff.mp single
                exact candidate first (List.mem_of_head? isFirst)
          · simp [counted] at resolved

/-- What a physical write adds to the database carries the next sequence number. -/
theorem stamped_append (coherent : Coherent env sink) {stored : Stored}
    (stamp : stored.seq = some (sink.writeSeq + 1)) : Stamped (sink.db ++ [stored]) :=
  coherent.stamped.append stamp fun earlier member old at_old =>
    Nat.lt_succ_of_le (coherent.bounded earlier member old at_old)

/-- No number exceeds that of the last write. -/
theorem bounded_append (coherent : Coherent env sink) {stored : Stored}
    (stamp : stored.seq = some (sink.writeSeq + 1)) :
    ∀ other ∈ sink.db ++ [stored], ∀ seq ∈ other.seq, seq ≤ sink.writeSeq + 1 := by
  intro other member seq at_seq
  rcases List.mem_append.mp member with before | last
  · exact Nat.le_succ_of_le (coherent.bounded other before seq at_seq)
  · rw [List.mem_singleton.mp last, stamp] at at_seq
    obtain rfl := Option.some.inj at_seq
    exact Nat.le_refl _

/-- Ids stored earlier keep their sequence numbers. -/
theorem seqAt_append_of_lastIdx {p : Stored → Bool} {db : Database} {last : Stored} :
    (lastIdx p db).bind (seqAt (db ++ [last])) = (lastIdx p db).bind db.seqAt := by
  cases found : lastIdx p db with
  | none => rfl
  | some id =>
      obtain ⟨stored, at_id, -⟩ := lastIdx_eq_some_iff.mp found
      exact seqAt_append_left (List.getElem?_eq_some_iff.mp at_id).1

/-- An entry that is no edge leaves the sequence numbers of the edges. -/
theorem edgeSeqs_append (coherent : Coherent env sink) {last : Stored}
    (noEdge : ∀ id, last.edgeOf id = false) (id : String) :
    sink.edgeSeqs[id]? =
      (lastIdx (Stored.edgeOf id) (sink.db ++ [last])).bind (seqAt (sink.db ++ [last])) := by
  rw [lastIdx_append_singleton, noEdge id, if_neg (by simp), seqAt_append_of_lastIdx]
  exact coherent.edgeSeqs id

/-- Appending an object that is no tombstone leaves the tombstones as they were. -/
theorem tombstoneSeqs_append (coherent : Coherent env sink) (last : Stored) (id : String)
    (nodeId : Nat) (found : sink.tombstoneIds[id]? = some nodeId) :
    sink.tombstoneNodeSeqs[nodeId]? = seqAt (sink.db ++ [last]) nodeId := by
  rw [coherent.tombstoneSeqs id nodeId found]
  rw [coherent.tombstoneIds] at found
  obtain ⟨stored, at_id, -⟩ := lastIdx_eq_some_iff.mp found
  rw [seqAt_append_left (List.getElem?_eq_some_iff.mp at_id).1]

/-- The edges keep ends that are stored. -/
theorem ends_append (coherent : Coherent env sink) {last : Stored}
    (new : ∀ edge, last.edge? = some edge →
      (sink.db.getNode edge.source).isSome ∧ (sink.db.getNode edge.target).isSome) :
    ∀ id edge, getEdge (sink.db ++ [last]) id = some edge →
      (getNode (sink.db ++ [last]) edge.source).isSome ∧
        (getNode (sink.db ++ [last]) edge.target).isSome := by
  have stays : ∀ {id}, (sink.db.getNode id).isSome → (getNode (sink.db ++ [last]) id).isSome := by
    intro id present
    obtain ⟨stored, found⟩ := Option.isSome_iff_exists.mp present
    rw [getNode_append_of_some found]
    rfl
  intro id edge found
  rcases getEdge_append_singleton.mp found with before | ⟨-, isLast⟩
  · exact (coherent.ends id edge before).imp stays stays
  · exact (new edge isLast).imp stays stays

variable (env) in
/-- What the lookup index holds after an append. -/
theorem lookup_append (last : Stored) {ids : List Nat} (same : ids.Perm sink.db.nodeIds) :
    indexedNodes env (sink.db ++ [last]) (ids ++ if last.node?.isSome then [sink.db.length] else []) =
      indexedNodes env sink.db ids ++
        (last.node?.bind (indexedNode env sink.db.length)).toList := by
  have inside : ∀ id ∈ ids, id < sink.db.length := by
    intro id member
    obtain ⟨stored, found⟩ := Option.isSome_iff_exists.mp
      (mem_nodeIds.mp (same.mem_iff.mp member))
    exact lt_length_of_getNode found
  rw [indexedNodes, List.filterMap_append]
  congr 1
  · exact indexedNodes_append_left inside
  · cases stored : last.node? with
    | none => rfl
    | some node =>
        simp only [Option.isSome_some, if_true, List.filterMap_cons, getNode_append_new, stored,
          Option.bind_some, List.filterMap_nil]
        cases indexedNode env sink.db.length node <;> rfl

/-- An index of all nodes is one again with the new node. -/
theorem nodeIds_perm_append {last : Stored} {ids : List Nat} (same : ids.Perm sink.db.nodeIds) :
    (ids ++ if last.node?.isSome then [sink.db.length] else []).Perm
      (nodeIds (sink.db ++ [last])) := by
  rw [nodeIds_append_singleton]
  exact same.append_right _

/-- Writing a node keeps the indexes in agreement. -/
theorem coherent_withNode (coherent : Coherent env sink) (record : NodeRecord)
    (key : Option TemporalReadKey)
    (read : temporalReadKeyFromProperties env record.id record.temporal = .ok key) :
    Coherent env (sink.withNode record key) where
  keyed := by
    intro id other seq found
    rcases getNode_append_singleton.mp found with before | ⟨-, isLast⟩
    · exact coherent.keyed id other seq before
    · obtain ⟨rfl, -⟩ : record.stored = other ∧ some (sink.writeSeq + 1) = seq := by
        simpa [preparedNode, Stored.node?] using isLast
      exact ⟨key, by rw [NodeRecord.stored, temporalReadKeyFromProperties_stored, read]⟩
  lookup := by
    obtain ⟨ids, described, same⟩ := coherent.lookup
    refine ⟨_, ?_, nodeIds_perm_append same⟩
    have entered : (preparedNode record (sink.writeSeq + 1)).node?.bind
        (indexedNode env sink.db.length) = some ⟨record.id, sink.db.length, key⟩ := by
      simp [preparedNode, Stored.node?, indexedNode, NodeRecord.stored, read]
    have next := lookup_append env (preparedNode record (sink.writeSeq + 1)) same
    rw [entered] at next
    exact next ▸ described.insert record.id sink.db.length key
  tombstoneIds := by
    intro id
    refine (coherent.tombstoneIds id).trans ?_
    simp [withNode, lastIdx_append_singleton, preparedNode, Stored.tombstoneOf]
  tombstoneSeqs := tombstoneSeqs_append coherent _
  edgeSeqs := edgeSeqs_append coherent fun _ => rfl
  legacy := coherent.legacy
  stamped := stamped_append coherent rfl
  bounded := bounded_append coherent rfl
  ends := ends_append coherent (by simp [preparedNode, Stored.edge?])

/-- Writing a tombstone keeps the indexes in agreement. -/
theorem coherent_withTombstone (coherent : Coherent env sink) (record : TombstoneRecord) :
    Coherent env (sink.withTombstone record) where
  keyed := by
    intro id other seq found
    rcases getNode_append_singleton.mp found with before | ⟨-, isLast⟩
    · exact coherent.keyed id other seq before
    · simp [preparedTombstone, Stored.node?] at isLast
  lookup := by
    obtain ⟨ids, described, same⟩ := coherent.lookup
    refine ⟨_, ?_, nodeIds_perm_append same⟩
    have next := lookup_append env (preparedTombstone record (sink.writeSeq + 1)) same
    simp only [preparedTombstone, Stored.node?, Option.bind_some, indexedNode, Option.toList_none,
      List.append_nil] at next
    exact next ▸ described
  tombstoneIds := by
    intro id
    simp only [withTombstone, getElem?_insert_eq, lastIdx_append_singleton, preparedTombstone,
      Stored.tombstoneOf, coherent.tombstoneIds id]
    by_cases same : record.id = id <;> simp [same]
  tombstoneSeqs := by
    intro id nodeId found
    simp only [withTombstone, getElem?_insert_eq] at found ⊢
    have fresh : ∀ {id : String} {nodeId}, sink.tombstoneIds[id]? = some nodeId →
        sink.db.length ≠ nodeId := by
      intro id nodeId stored
      rw [coherent.tombstoneIds] at stored
      obtain ⟨_, at_id, -⟩ := lastIdx_eq_some_iff.mp stored
      have := (List.getElem?_eq_some_iff.mp at_id).1
      omega
    by_cases same : record.id = id
    · obtain rfl : sink.db.length = nodeId := by simpa [same] using found
      simp [preparedTombstone, Stored.seq, StoredNode.seq]
    · rw [if_neg same] at found
      rw [if_neg (fresh found)]
      exact tombstoneSeqs_append coherent _ id nodeId found
  edgeSeqs := edgeSeqs_append coherent fun _ => rfl
  legacy := coherent.legacy
  stamped := stamped_append coherent rfl
  bounded := bounded_append coherent rfl
  ends := ends_append coherent (by simp [preparedTombstone, Stored.edge?])

/-- Writing an edge between stored nodes keeps the indexes in agreement. -/
theorem coherent_withEdge (coherent : Coherent env sink) (record : EdgeRecord)
    {source target : Nat} (from_ : (sink.db.getNode source).isSome)
    (to_ : (sink.db.getNode target).isSome) :
    Coherent env (sink.withEdge record source target) where
  keyed := by
    intro id other seq found
    rcases getNode_append_singleton.mp found with before | ⟨-, isLast⟩
    · exact coherent.keyed id other seq before
    · simp [preparedEdge, Stored.node?] at isLast
  lookup := by
    obtain ⟨ids, described, same⟩ := coherent.lookup
    refine ⟨_, ?_, nodeIds_perm_append same⟩
    have next := lookup_append env (preparedEdge record source target (sink.writeSeq + 1)) same
    simp only [preparedEdge, Stored.node?, Option.bind_none, Option.toList_none,
      List.append_nil] at next
    exact next ▸ described
  tombstoneIds := by
    intro id
    refine (coherent.tombstoneIds id).trans ?_
    simp [withEdge, lastIdx_append_singleton, preparedEdge, Stored.tombstoneOf]
  tombstoneSeqs := tombstoneSeqs_append coherent _
  edgeSeqs := by
    intro id
    simp only [withEdge, getElem?_insert_eq, lastIdx_append_singleton, preparedEdge, Stored.edgeOf]
    by_cases same : record.id = id
    · subst same
      simp [EdgeRecord.stored, seqAt, Stored.seq]
    · simp only [EdgeRecord.stored, same, if_false, decide_false, Bool.false_eq_true]
      rw [seqAt_append_of_lastIdx]
      exact coherent.edgeSeqs id
  legacy := coherent.legacy
  stamped := stamped_append coherent rfl
  bounded := bounded_append coherent rfl
  ends := ends_append coherent (by
    intro edge isLast
    obtain rfl : (⟨record.stored, source, target, some (sink.writeSeq + 1)⟩ : StoredEdge) = edge := by
      simpa [preparedEdge, Stored.edge?] using isLast
    exact ⟨from_, to_⟩)

/-- So a write that creates a record keeps the sink coherent. -/
theorem Creates.coherent {record : GraphRecord} (creates : Creates env sink record sink')
    (coherent : Coherent env sink) : Coherent env sink' := by
  cases creates with
  | node record key read accepted => exact coherent_withNode coherent record key read
  | tombstone record accepted => exact coherent_withTombstone coherent record
  | edge record source target from_ to_ accepted =>
      exact coherent_withEdge coherent record (isSome_of_resolveNodeId coherent from_)
        (isSome_of_resolveNodeId coherent to_)

/-- An accepted write keeps the indexes in agreement. -/
theorem Accepts.coherent {record : GraphRecord} {outcome : WriteOutcome}
    (accepts : Accepts env sink record sink' outcome) (coherent : Coherent env sink) :
    Coherent env sink' := by
  cases accepts with
  | unchanged known stored => exact coherent
  | inserted known notStored creates => exact creates.coherent coherent

end Invariant

end EmbeddedAletheiaSink

end Egregore
