import Egregore.Adapters.ReadAll
import Egregore.Adapters.Reopen

/-!
# What the current read returns

`Segments` says of each part of the slice which records it holds, in terms of the physical
objects; `readAllRecords_eq` that the read of a coherent sink never fails and is made of such
parts, one after the other.
-/

namespace Egregore

open Base Database

namespace Database

/-- Every stored record is of a version that this build reads. -/
def Known (db : Database) : Prop := ∀ stored ∈ db, KnownVersion stored.record

variable {db : Database}

/-- A stored node of a known database has a known version. -/
theorem Known.node (known : db.Known) {nodeId : Nat} {stored : StoredNode}
    (found : db.getNode nodeId = some stored) : KnownVersion stored.record :=
  known _ (List.mem_of_getElem? (getNode_eq_some_iff.mp found))

/-- A stored edge of it has one too. -/
theorem Known.edge (known : db.Known) {edgeId : Nat} {stored : StoredEdge}
    (found : db.getEdge edgeId = some stored) : KnownVersion (.edge stored.record) :=
  known _ (List.mem_of_getElem? (getEdge_eq_some_iff.mp found))

end Database

/-- A record of a known version passes the check. -/
theorem validated_eq_ok {record : GraphRecord} (known : KnownVersion record) :
    validated record = .ok record := by
  rw [validated, validateAdapterRecordVersion_eq_ok_iff.mpr known]

namespace EmbeddedAletheiaSink

variable {env : Aletheia} {sink sink' : EmbeddedAletheiaSink}

section Read

/-- A stored node reads back as it was written. -/
theorem readNodeRecord_eq_ok (known : sink.db.Known) {nodeId : Nat} {record : NodeRecord}
    {seq : Option Nat} (found : sink.db.getNode nodeId = some (.node record seq)) :
    sink.readNodeRecord env record.id nodeId = .ok (.node record) := by
  have version : KnownVersion (.node record) := known.node found
  simp [readNodeRecord, found, StoredNode.record, validated_eq_ok version]

/-- So does a stored tombstone. -/
theorem readTombstoneRecord_eq_ok (known : sink.db.Known) {nodeId : Nat}
    {record : TombstoneRecord} {seq : Option Nat}
    (found : sink.db.getNode nodeId = some (.tombstone record seq)) :
    sink.readTombstoneRecord env record.id nodeId = .ok (.tombstone record) := by
  have version : KnownVersion (.tombstone record) := known.node found
  simp [readTombstoneRecord, found, StoredNode.record, validated_eq_ok version]

/-- So does a stored edge. -/
theorem readEdgeRecord_eq_ok (known : sink.db.Known) {edgeId : Nat} {stored : StoredEdge}
    (found : sink.db.getEdge edgeId = some stored) :
    sink.readEdgeRecord env stored.record.id edgeId = .ok (.edge stored.record) := by
  simp [readEdgeRecord, found, validated_eq_ok (known.edge found)]

end Read

section Known

/-- Creating a record of a known version keeps the database known. -/
theorem Creates.known {record : GraphRecord} (creates : Creates env sink record sink')
    (version : KnownVersion record) (known : sink.db.Known) : sink'.db.Known := by
  cases creates with
  | node record key read accepted =>
      intro stored member
      rcases List.mem_append.mp member with old | new
      · exact known stored old
      · rw [List.mem_singleton.mp new]
        exact version
  | tombstone record accepted =>
      intro stored member
      rcases List.mem_append.mp member with old | new
      · exact known stored old
      · rw [List.mem_singleton.mp new]
        exact version
  | edge record source target from_ to_ accepted =>
      intro stored member
      rcases List.mem_append.mp member with old | new
      · exact known stored old
      · rw [List.mem_singleton.mp new]
        exact version

/-- So does accepting one. -/
theorem Accepts.known {record : GraphRecord} {outcome : WriteOutcome}
    (accepts : Accepts env sink record sink' outcome) (known : sink.db.Known) :
    sink'.db.Known := by
  cases accepts with
  | unchanged => exact known
  | inserted version _ creates => exact creates.known version known

/-- Every record in a store that a process can hold has passed the version gate. -/
theorem Reachable.known {parse : String → Except String Int} (reachable : Reachable parse sink) :
    sink.db.Known := by
  induction reachable with
  | fresh => exact fun stored member => absurd member List.not_mem_nil
  | write _ _ accepted ih => exact (accepts_of_writeRecord accepted).known ih
  | reopen before reader opened ih =>
      obtain ⟨reopened, opened', -, sameDb⟩ := openStore_coherent (before.coherent _ reader) _ rfl
      rw [opened, Except.ok.injEq] at opened'
      rw [opened', sameDb]
      exact ih

end Known

section Edges

/-- Later edges are those written later. -/
theorem candidateIsLater_iff {db : Database} (stamped : db.Stamped) {edgeId currentId : Nat}
    (inside : edgeId < db.length) (currentInside : currentId < db.length) :
    candidateIsLater (db.seqAt edgeId, edgeId) (db.seqAt currentId, currentId) = true ↔
      currentId < edgeId := by
  obtain ⟨seq, at_edge⟩ := stamped.exists_seqAt inside
  obtain ⟨current, at_current⟩ := stamped.exists_seqAt currentInside
  have order := stamped.seqAt_lt_iff at_current at_edge
  have same : seq = current → ¬ currentId < edgeId := by
    rintro rfl less
    exact Nat.lt_irrefl _ (order.mpr less)
  simp only [at_edge, at_current, candidateIsLater, Bool.or_eq_true, Bool.and_eq_true,
    decide_eq_true_eq, order]
  constructor
  · rintro (less | ⟨draw, less⟩) <;> exact less
  · exact Or.inl

/-- What the scan has gathered of the edges met so far. -/
structure Met (db : Database) (active : StrSet) (met : List Nat) (edges : LatestEdges) : Prop where
  latest : ∀ id : String, edges.latest[id]? =
    if id ∈ active then none
    else (bestOf compare (met.filter fun edgeId => db[edgeId]?.any (Stored.edgeOf id))).map
      fun edgeId => (db.seqAt edgeId, edgeId)
  nodup : edges.emitOrder.Nodup
  order : ∀ id : String, id ∈ edges.emitOrder ↔ edges.latest[id]?.isSome

/-- Before the scan no edge was met. -/
theorem met_nil (db : Database) (active : StrSet) : Met db active [] {} where
  latest id := by simp
  nodup := List.nodup_nil
  order id := by simp

/-- An edge that is met replaces an earlier one of its ID. -/
theorem Met.meet {db : Database} {active : StrSet} {met : List Nat} {edges : LatestEdges}
    (gathered : Met db active met edges) (stamped : db.Stamped)
    (inside : ∀ edgeId ∈ met, edgeId < db.length) {edgeId : Nat} {edge : StoredEdge}
    (found : db.getEdge edgeId = some edge) :
    Met db active (met ++ [edgeId])
      (if active.contains edge.record.id then edges else edges.meet edgeId edge) := by
  have at_edge : db[edgeId]? = some (.edge edge) := getEdge_eq_some_iff.mp found
  have stamp : db.seqAt edgeId = edge.seq := by rw [seqAt, at_edge]; rfl
  -- The new edge counts for its own id only.
  have candidates : ∀ id : String,
      (met ++ [edgeId]).filter (fun edgeId => db[edgeId]?.any (Stored.edgeOf id)) =
        met.filter (fun edgeId => db[edgeId]?.any (Stored.edgeOf id)) ++
          if edge.record.id = id then [edgeId] else [] := by
    intro id
    rw [List.filter_append]
    congr 1
    by_cases same : edge.record.id = id <;> simp [at_edge, Stored.edgeOf, same]
  by_cases held : edge.record.id ∈ active
  · rw [if_pos (Std.ExtTreeSet.contains_iff_mem.mpr held)]
    refine ⟨fun id => ?_, gathered.nodup, gathered.order⟩
    rw [gathered.latest, candidates]
    by_cases same : edge.record.id = id
    · subst same
      rw [if_pos held, if_pos held]
    · rw [if_neg same, List.append_nil]
  · rw [if_neg (fun contained => held (Std.ExtTreeSet.contains_iff_mem.mp contained))]
    have best : ∀ id : String, id ∉ active → edge.record.id = id →
        (bestOf compare ((met ++ [edgeId]).filter
          fun edgeId => db[edgeId]?.any (Stored.edgeOf id))) =
          keepBest compare (bestOf compare (met.filter
            fun edgeId => db[edgeId]?.any (Stored.edgeOf id))) edgeId := by
      intro id _ same
      rw [candidates, if_pos same, bestOf_append_singleton]
    have other : ∀ id : String, edge.record.id ≠ id →
        edges.latest[id]? = if id ∈ active then none
          else (bestOf compare ((met ++ [edgeId]).filter
            fun edgeId => db[edgeId]?.any (Stored.edgeOf id))).map
              fun edgeId => (db.seqAt edgeId, edgeId) := by
      intro id differs
      rw [gathered.latest, candidates, if_neg differs, List.append_nil]
    have current := gathered.latest edge.record.id
    rw [if_neg held] at current
    unfold LatestEdges.meet
    cases before : bestOf compare (met.filter
        fun edgeId => db[edgeId]?.any (Stored.edgeOf edge.record.id)) with
    | none =>
        rw [before, Option.map_none] at current
        simp only [current]
        have absent : edge.record.id ∉ edges.emitOrder := by
          rw [gathered.order, current]
          simp
        refine ⟨fun id => ?_, ?_, fun id => ?_⟩
        · rw [getElem?_insert_eq]
          by_cases same : edge.record.id = id
          · subst same
            rw [if_pos rfl, if_neg held, best _ held rfl, before]
            simp [keepBest, stamp]
          · rw [if_neg same, other id same]
        · exact List.nodup_append.mpr ⟨gathered.nodup, List.pairwise_singleton _ _, by
            intro id member other inside same
            rw [List.mem_singleton.mp inside] at same
            exact absent (same ▸ member)⟩
        · rw [List.mem_append, List.mem_singleton, gathered.order, getElem?_insert_eq]
          by_cases same : edge.record.id = id
          · simp [same]
          · simp [same, Ne.symm same]
    | some kept =>
        rw [before, Option.map_some] at current
        have keptInside : kept < db.length := by
          have member := (isBest_of_bestOf before).mem
          exact inside kept (List.mem_filter.mp member).1
        have later := candidateIsLater_iff stamped (lt_length_of_getEdge found) keptInside
        rw [stamp] at later
        simp only [current]
        split
        · next replaces =>
            refine ⟨fun id => ?_, gathered.nodup, fun id => ?_⟩
            · rw [getElem?_insert_eq]
              by_cases same : edge.record.id = id
              · subst same
                rw [if_pos rfl, if_neg held, best _ held rfl, before]
                simp [keepBest, Nat.compare_eq_lt, later.mp replaces, stamp]
              · rw [if_neg same, other id same]
            · rw [gathered.order, getElem?_insert_eq]
              by_cases same : edge.record.id = id
              · subst same
                simp [current]
              · simp [same]
        · next stays =>
            refine ⟨fun id => ?_, gathered.nodup, gathered.order⟩
            by_cases same : edge.record.id = id
            · subst same
              have notLess : ¬ kept < edgeId := fun less => stays (later.mpr less)
              rw [current, if_neg held, best _ held rfl, before]
              simp [keepBest, Nat.compare_eq_lt, notLess]
            · exact other id same

/-- The scan goes through, and has met every edge. -/
theorem foldlM_scanEdges (stamped : sink.db.Stamped) (active : StrSet) {scan : List Nat}
    (scanned : ∀ edgeId ∈ scan, ∃ edge, sink.db.getEdge edgeId = some edge) :
    ∃ edges, scan.foldlM (sink.scanEdges env active) {} = .ok edges ∧
      Met sink.db active scan edges := by
  induction scan using List.reverseRecOn with
  | nil => exact ⟨{}, rfl, met_nil _ _⟩
  | append_singleton scan edgeId ih =>
      obtain ⟨edges, folded, gathered⟩ := ih
        fun other member => scanned other (List.mem_append_left _ member)
      obtain ⟨edge, found⟩ := scanned edgeId (by simp)
      refine ⟨_, ?_, gathered.meet stamped (fun other member => ?_) found⟩
      · rw [List.foldlM_append, folded]
        simp [scanEdges, found, bind, Except.bind, pure, Except.pure]
      · obtain ⟨edge, found⟩ := scanned other (List.mem_append_left _ member)
        exact lt_length_of_getEdge found

/-- `latest_edge_versions` gives the last stored edge of each id that is not retracted. -/
theorem latestEdgeVersions_spec (coherent : Coherent env sink) (active : StrSet) :
    ∃ versions, sink.latestEdgeVersions env active = .ok versions ∧
      (versions.map Prod.fst).Nodup ∧ ∀ id edgeId, (id, edgeId) ∈ versions ↔
        id ∉ active ∧ lastIdx (Stored.edgeOf id) sink.db = some edgeId := by
  have scanned := mem_scan env fun id edge found => (coherent.ends id edge found).1
  have met : ∀ edgeId ∈ sink.edgeScan env, ∃ edge, sink.db.getEdge edgeId = some edge :=
    fun edgeId member => (scanned edgeId).mp member
  obtain ⟨edges, folded, gathered⟩ := foldlM_scanEdges coherent.stamped active met
  have latest : ∀ id : String, edges.latest[id]? = if id ∈ active then none
      else (lastIdx (Stored.edgeOf id) sink.db).map
        fun edgeId => (sink.db.seqAt edgeId, edgeId) := by
    intro id
    rw [gathered.latest, bestOf_eq_lastIdx]
    intro edgeId
    rw [List.mem_filter, Option.any_eq_true]
    constructor
    · exact fun ⟨_, found⟩ => found
    · rintro ⟨stored, at_edge, named⟩
      refine ⟨(scanned edgeId).mpr ?_, stored, at_edge, named⟩
      match stored, at_edge, named with
      | .edge edge, at_edge, _ => exact ⟨edge, getEdge_eq_some_iff.mpr at_edge⟩
      | .node node, _, named => simp [Stored.edgeOf] at named
  refine ⟨_, by rw [latestEdgeVersions, folded]; rfl, ?_, fun id edgeId => ?_⟩
  · have distinct : (edges.emitOrder.map id).Nodup := by simpa using gathered.nodup
    refine nodup_map_filterMap distinct fun id _ entry found => ?_
    obtain ⟨_, -, rfl⟩ := Option.map_eq_some_iff.mp found
    rfl
  · rw [List.mem_filterMap]
    constructor
    · rintro ⟨other, -, found⟩
      obtain ⟨entry, held, same⟩ := Option.map_eq_some_iff.mp found
      obtain ⟨rfl, rfl⟩ := Prod.mk.inj same
      rw [latest] at held
      split at held
      · cases held
      · next free =>
          obtain ⟨edgeId, last, rfl⟩ := Option.map_eq_some_iff.mp held
          exact ⟨free, last⟩
    · rintro ⟨free, last⟩
      have held : edges.latest[id]? = some (sink.db.seqAt edgeId, edgeId) := by
        rw [latest, if_neg free, last, Option.map_some]
      refine ⟨id, ?_, by rw [held, Option.map_some]⟩
      rw [gathered.order, held]
      rfl

end Edges

section Segments

/-- A node that the current read shows for its snapshot at a commit. -/
def IsSnapshot (env : Aletheia) (db : Database) (record : GraphRecord) : Prop :=
  ∃ id commit candidate node seq,
    bestOf candidateOrder
      ((candidatesOf id (indexedNodes env db db.nodeIds)).filter (atCommit commit)) =
        some candidate ∧
    db.getNode candidate.storageId = some (.node node seq) ∧
    ¬ (isProjectId id = true ∧ ¬ db.Suppressed id) ∧ record = .node node

/-- The parts of the current slice, in order. -/
structure Segments where
  projects : List GraphRecord
  snapshots : List GraphRecord
  nodes : List GraphRecord
  tombstones : List GraphRecord
  edges : List GraphRecord

/-- The whole slice. -/
def Segments.slice (segments : Segments) : List GraphRecord :=
  segments.projects ++ segments.snapshots ++ segments.nodes ++ segments.tombstones ++
    segments.edges

/-- What each part of the slice holds. -/
structure Segments.Of (env : Aletheia) (db : Database) (segments : Segments) : Prop where
  projects : ∀ record, record ∈ segments.projects ↔ ∃ nodeId node seq,
    db.getNode nodeId = some (.node node seq) ∧ isProjectId node.id = true ∧
      ¬ db.Suppressed node.id ∧ record = .node node
  snapshots : ∀ record, record ∈ segments.snapshots ↔ IsSnapshot env db record
  nodes : ∀ record, record ∈ segments.nodes ↔ ∃ nodeId node seq,
    db.getNode nodeId = some (.node node seq) ∧
      lastIdx (Stored.plainNodeOf node.id) db = some nodeId ∧ isProjectId node.id = false ∧
      ¬ db.Suppressed node.id ∧ record = .node node
  tombstones : ∀ record, record ∈ segments.tombstones ↔ ∃ nodeId tombstone seq,
    db.getNode nodeId = some (.tombstone tombstone seq) ∧
      lastIdx (Stored.tombstoneOf tombstone.id) db = some nodeId ∧
      db.Suppressed tombstone.deletedId ∧ record = .tombstone tombstone
  edges : ∀ record, record ∈ segments.edges ↔ ∃ edgeId edge,
    db.getEdge edgeId = some edge ∧ lastIdx (Stored.edgeOf edge.record.id) db = some edgeId ∧
      ¬ db.Suppressed edge.record.id ∧ record = .edge edge.record
  nodesDistinct : (segments.nodes.map GraphRecord.id).Nodup
  tombstonesDistinct : (segments.tombstones.map GraphRecord.id).Nodup
  edgesDistinct : (segments.edges.map GraphRecord.id).Nodup

variable {active : StrSet}

/-- A tombstone is stale when what it deletes is active again. -/
theorem staleTombstoneRecordIds_spec (coherent : Coherent env sink)
    (retracted : ∀ id, id ∈ active ↔ sink.db.Suppressed id) :
    ∃ stale, collectM (sink.staleTombstoneRecordId env active) sink.tombstoneIds.toList = .ok stale ∧
      ∀ nodeId tombstone seq, sink.tombstoneIds[tombstone.id]? = some nodeId →
        sink.db.getNode nodeId = some (.tombstone tombstone seq) →
        (tombstone.id ∈ stale ↔ ¬ sink.db.Suppressed tombstone.deletedId) := by
  have visits : ∀ entry ∈ sink.tombstoneIds.toList, sink.staleTombstoneRecordId env active entry =
      .ok (((sink.db.getNode entry.2).bind deletedIdOf).bind fun deletedId =>
        if active.contains deletedId then none else some entry.1) := by
    rintro ⟨recordId, nodeId⟩ member
    have indexed := Std.ExtTreeMap.mem_toList_iff_getElem?_eq_some.mp member
    obtain ⟨tombstone, seq, found, -⟩ := tombstone_of_indexed coherent indexed
    simp [staleTombstoneRecordId, found, deletedIdOf]
  refine ⟨_, collectM_eq_ok visits, fun nodeId tombstone seq indexed found => ?_⟩
  rw [List.mem_filterMap, ← retracted]
  constructor
  · rintro ⟨⟨recordId, other⟩, member, held⟩
    have indexed' := Std.ExtTreeMap.mem_toList_iff_getElem?_eq_some.mp member
    obtain ⟨deletedId, found', kept⟩ := Option.bind_eq_some_iff.mp held
    split at kept
    · cases kept
    · next free =>
        obtain rfl : recordId = tombstone.id := Option.some.inj kept
        rw [indexed, Option.some.injEq] at indexed'
        subst indexed'
        rw [found, Option.bind_some, deletedIdOf, Option.some.injEq] at found'
        subst found'
        exact fun inside => free (Std.ExtTreeSet.contains_iff_mem.mpr inside)
  · intro free
    refine ⟨(tombstone.id, nodeId), Std.ExtTreeMap.mem_toList_iff_getElem?_eq_some.mpr indexed, ?_⟩
    rw [found, Option.bind_some, deletedIdOf, Option.bind_some,
      if_neg fun contained => free (Std.ExtTreeSet.contains_iff_mem.mp contained)]

/-- The tombstones of the current read. -/
theorem currentTombstones_spec (coherent : Coherent env sink) (known : sink.db.Known)
    {stale : List String}
    (outdated : ∀ nodeId tombstone seq, sink.tombstoneIds[tombstone.id]? = some nodeId →
      sink.db.getNode nodeId = some (.tombstone tombstone seq) →
      (tombstone.id ∈ stale ↔ ¬ sink.db.Suppressed tombstone.deletedId)) :
    ∃ tombstones, collectM (sink.currentTombstone env stale) sink.tombstoneIds.toList =
        .ok tombstones ∧
      (tombstones.map GraphRecord.id).Nodup ∧
      ∀ record, record ∈ tombstones ↔ ∃ nodeId tombstone seq,
        sink.db.getNode nodeId = some (.tombstone tombstone seq) ∧
          lastIdx (Stored.tombstoneOf tombstone.id) sink.db = some nodeId ∧
          sink.db.Suppressed tombstone.deletedId ∧ record = .tombstone tombstone := by
  have visits : ∀ entry ∈ sink.tombstoneIds.toList, sink.currentTombstone env stale entry =
      .ok (if stale.contains entry.1 then none
        else (sink.db.getNode entry.2).map StoredNode.record) := by
    rintro ⟨recordId, nodeId⟩ member
    have indexed := Std.ExtTreeMap.mem_toList_iff_getElem?_eq_some.mp member
    obtain ⟨tombstone, seq, found, rfl⟩ := tombstone_of_indexed coherent indexed
    rw [currentTombstone]
    split
    · rfl
    · rw [readTombstoneRecord_eq_ok known found, found]
      rfl
  refine ⟨_, collectM_eq_ok visits, ?_, fun record => ?_⟩
  · have distinct : (sink.tombstoneIds.toList.map Prod.fst).Nodup := by
      rw [Std.ExtTreeMap.map_fst_toList_eq_keys]
      exact Std.ExtTreeMap.nodup_keys
    refine nodup_map_filterMap distinct ?_
    rintro ⟨recordId, nodeId⟩ member record held
    have indexed := Std.ExtTreeMap.mem_toList_iff_getElem?_eq_some.mp member
    obtain ⟨tombstone, seq, found, rfl⟩ := tombstone_of_indexed coherent indexed
    split at held
    · cases held
    · rw [found, Option.map_some, Option.some.injEq] at held
      rw [← held]
      rfl
  · rw [List.mem_filterMap]
    constructor
    · rintro ⟨⟨recordId, nodeId⟩, member, held⟩
      have indexed := Std.ExtTreeMap.mem_toList_iff_getElem?_eq_some.mp member
      obtain ⟨tombstone, seq, found, rfl⟩ := tombstone_of_indexed coherent indexed
      split at held
      · cases held
      · next fresh =>
          rw [found, Option.map_some, Option.some.injEq] at held
          refine ⟨nodeId, tombstone, seq, found, coherent.tombstoneIds _ ▸ indexed, ?_, held.symm⟩
          rw [List.contains_iff_mem, outdated nodeId tombstone seq indexed found, not_not] at fresh
          exact fresh
    · rintro ⟨nodeId, tombstone, seq, found, last, retracted, rfl⟩
      have indexed := (coherent.tombstoneIds tombstone.id).trans last
      refine ⟨(tombstone.id, nodeId),
        Std.ExtTreeMap.mem_toList_iff_getElem?_eq_some.mpr indexed, ?_⟩
      have fresh : ¬ stale.contains tombstone.id = true := by
        rw [List.contains_iff_mem, outdated nodeId tombstone seq indexed found, not_not]
        exact retracted
      rw [if_neg fresh, found]
      rfl

/-- The project nodes of the current read, with their physical ids. -/
theorem projectNodes_spec (known : sink.db.Known)
    (retracted : ∀ id, id ∈ active ↔ sink.db.Suppressed id) :
    ∃ projects, collectM (sink.projectNode env active) (env.getAllNodeIds sink.db) =
        .ok projects ∧
      ∀ nodeId record, (nodeId, record) ∈ projects ↔ ∃ node seq,
        sink.db.getNode nodeId = some (.node node seq) ∧ isProjectId node.id = true ∧
          ¬ sink.db.Suppressed node.id ∧ record = .node node := by
  have visits : ∀ nodeId ∈ env.getAllNodeIds sink.db, sink.projectNode env active nodeId =
      .ok ((sink.db.getNode nodeId).bind fun stored =>
        match stored with
        | .tombstone _ _ => none
        | .node record _ =>
            if !isProjectId record.id || active.contains record.id then none
            else some (nodeId, .node record)) := by
    intro nodeId member
    rw [(env.getAllNodeIds_perm sink.db).mem_iff, mem_nodeIds, Option.isSome_iff_exists] at member
    obtain ⟨stored, found⟩ := member
    cases stored with
    | tombstone record seq => simp [projectNode, found]
    | node record seq =>
        simp only [projectNode, found, readNodeRecord_eq_ok known found, Option.bind_some]
        split <;> rfl
  refine ⟨_, collectM_eq_ok visits, fun nodeId record => ?_⟩
  simp only [List.mem_filterMap, ← retracted]
  constructor
  · rintro ⟨other, member, held⟩
    obtain ⟨stored, found, shown⟩ := Option.bind_eq_some_iff.mp held
    cases stored with
    | tombstone record seq => cases shown
    | node node seq =>
        simp only [Option.ite_none_left_eq_some, Bool.or_eq_true, Bool.not_eq_true', not_or,
          Bool.not_eq_false, Option.some.injEq, Prod.mk.injEq] at shown
        obtain ⟨⟨project, free⟩, rfl, rfl⟩ := shown
        exact ⟨node, seq, found, project,
          fun inside => free (Std.ExtTreeSet.contains_iff_mem.mpr inside), rfl⟩
  · rintro ⟨node, seq, found, project, free, rfl⟩
    refine ⟨nodeId, ?_, ?_⟩
    · rw [(env.getAllNodeIds_perm sink.db).mem_iff, mem_nodeIds, found]
      rfl
    · have absent : ¬ (!isProjectId node.id || active.contains node.id) = true := by
        rw [project, Bool.not_true, Bool.false_or, Std.ExtTreeSet.contains_iff_mem]
        exact free
      rw [found, Option.bind_some]
      exact if_neg absent

/-- The nodes of a commit are the best candidates there. -/
theorem mem_commitNodes (coherent : Coherent env sink) {id : String} {nodeId : Nat} :
    (id, nodeId) ∈ sink.commitNodes ↔ ∃ commit candidate,
      bestOf candidateOrder ((candidatesOf id (indexedNodes env sink.db sink.db.nodeIds)).filter
        (atCommit commit)) = some candidate ∧ candidate.storageId = nodeId := by
  obtain ⟨ids, described, same⟩ := coherent.lookup
  have best : ∀ commit, (sink.nodeLookup.byCommit.getD id ∅)[commit]? =
      bestOf candidateOrder ((candidatesOf id (indexedNodes env sink.db sink.db.nodeIds)).filter
        (atCommit commit)) := by
    intro commit
    rw [described.byCommit]
    exact bestOf_perm ((candidatesOf_perm (indexedNodes_perm same) id).filter _)
  simp only [← best, commitNodes, List.mem_flatMap, List.mem_map, Prod.mk.injEq]
  constructor
  · rintro ⟨⟨other, commits⟩, member, ⟨commit, candidate⟩, inside, rfl, rfl⟩
    have held := Std.ExtTreeMap.mem_toList_iff_getElem?_eq_some.mp member
    refine ⟨commit, candidate, ?_, rfl⟩
    rw [Std.ExtTreeMap.getD_eq_getD_getElem?, held, Option.getD_some]
    exact Std.ExtTreeMap.mem_toList_iff_getElem?_eq_some.mp inside
  · rintro ⟨commit, candidate, held, rfl⟩
    rw [Std.ExtTreeMap.getD_eq_getD_getElem?] at held
    cases found : sink.nodeLookup.byCommit[id]? with
    | none => simp [found] at held
    | some commits =>
        rw [found, Option.getD_some] at held
        exact ⟨(id, commits), Std.ExtTreeMap.mem_toList_iff_getElem?_eq_some.mpr found,
          (commit, candidate), Std.ExtTreeMap.mem_toList_iff_getElem?_eq_some.mpr held, rfl, rfl⟩

/-- A candidate of an id is a stored node of it. -/
theorem getNode_of_bestOf {db : Database} {id : String} {p : ReadBackCandidate → Bool}
    {candidate : ReadBackCandidate}
    (best : bestOf candidateOrder ((candidatesOf id (indexedNodes env db db.nodeIds)).filter p) =
      some candidate) :
    ∃ node seq, db.getNode candidate.storageId = some (.node node seq) ∧ node.id = id ∧
      temporalReadKeyFromProperties env node.id node.temporal = .ok candidate.temporalKey ∧
      p candidate = true := by
  obtain ⟨inside, holds⟩ := List.mem_filter.mp (isBest_of_bestOf best).mem
  simp only [candidatesOf, List.mem_map, List.mem_filter, decide_eq_true_eq] at inside
  obtain ⟨entry, ⟨member, named⟩, rfl⟩ := inside
  obtain ⟨-, node, seq, found, same, read⟩ := nodeId_of_mem_indexedNodes member
  exact ⟨node, seq, found, same.trans named, read, holds⟩

/-- The commit snapshots of the current read. -/
theorem snapshotNodes_spec (coherent : Coherent env sink) (known : sink.db.Known)
    {emitted : List Nat}
    (shown : ∀ nodeId, nodeId ∈ emitted ↔ ∃ node seq,
      sink.db.getNode nodeId = some (.node node seq) ∧ isProjectId node.id = true ∧
        ¬ sink.db.Suppressed node.id) :
    ∃ snapshots, collectM (sink.snapshotNode env emitted) sink.commitNodes = .ok snapshots ∧
      ∀ record, record ∈ snapshots ↔ IsSnapshot env sink.db record := by
  have visits : ∀ entry ∈ sink.commitNodes, sink.snapshotNode env emitted entry =
      .ok (if emitted.contains entry.2 then none
        else (sink.db.getNode entry.2).map StoredNode.record) := by
    rintro ⟨id, nodeId⟩ member
    obtain ⟨commit, candidate, best, rfl⟩ := (mem_commitNodes coherent).mp member
    obtain ⟨node, seq, found, rfl, -⟩ := getNode_of_bestOf best
    rw [snapshotNode]
    split
    · rfl
    · rw [readNodeRecord_eq_ok known found, found]
      rfl
  refine ⟨_, collectM_eq_ok visits, fun record => ?_⟩
  rw [List.mem_filterMap]
  constructor
  · rintro ⟨⟨id, nodeId⟩, member, held⟩
    obtain ⟨commit, candidate, best, rfl⟩ := (mem_commitNodes coherent).mp member
    obtain ⟨node, seq, found, rfl, -⟩ := getNode_of_bestOf best
    split at held
    · cases held
    · next fresh =>
        rw [found, Option.map_some, Option.some.injEq] at held
        refine ⟨node.id, commit, candidate, node, seq, best, found, fun project => fresh ?_,
          held.symm⟩
        exact List.contains_iff_mem.mpr ((shown _).mpr ⟨node, seq, found, project⟩)
  · rintro ⟨id, commit, candidate, node, seq, best, found, hidden, rfl⟩
    refine ⟨(id, candidate.storageId), (mem_commitNodes coherent).mpr
      ⟨commit, candidate, best, rfl⟩, ?_⟩
    obtain ⟨node', seq', found', named, -⟩ := getNode_of_bestOf best
    rw [found, Option.some.injEq, StoredNode.node.injEq] at found'
    obtain ⟨rfl, rfl⟩ := found'
    have fresh : ¬ emitted.contains candidate.storageId = true := by
      rw [List.contains_iff_mem, shown]
      rintro ⟨other, otherSeq, at_node, project⟩
      rw [found, Option.some.injEq, StoredNode.node.injEq] at at_node
      obtain ⟨rfl, -⟩ := at_node
      exact hidden (named ▸ project)
    rw [if_neg fresh, found]
    rfl

/-- The current plain nodes. -/
theorem plainNodes_spec (coherent : Coherent env sink) (known : sink.db.Known)
    (retracted : ∀ id, id ∈ active ↔ sink.db.Suppressed id) {emitted : List Nat}
    (shown : ∀ nodeId, nodeId ∈ emitted ↔ ∃ node seq,
      sink.db.getNode nodeId = some (.node node seq) ∧ isProjectId node.id = true ∧
        ¬ sink.db.Suppressed node.id) :
    ∃ nodes, collectM (sink.plainNode env active emitted) sink.nodeLookup.nonTemporal.toList =
        .ok nodes ∧
      (nodes.map GraphRecord.id).Nodup ∧
      ∀ record, record ∈ nodes ↔ ∃ nodeId node seq,
        sink.db.getNode nodeId = some (.node node seq) ∧
          lastIdx (Stored.plainNodeOf node.id) sink.db = some nodeId ∧
          isProjectId node.id = false ∧ ¬ sink.db.Suppressed node.id ∧ record = .node node := by
  have indexed : ∀ {id : String} {nodeId : Nat},
      (id, nodeId) ∈ sink.nodeLookup.nonTemporal.toList →
        lastIdx (Stored.plainNodeOf id) sink.db = some nodeId ∧ ∃ node seq,
          sink.db.getNode nodeId = some (.node node seq) ∧ node.id = id := by
    intro id nodeId member
    have held := Std.ExtTreeMap.mem_toList_iff_getElem?_eq_some.mp member
    rw [nonTemporal_eq coherent] at held
    obtain ⟨node, seq, found, named, -⟩ :=
      plainNodeOf_iff.mp (lastIdx_eq_some_iff_greatest.mp held).1
    exact ⟨held, node, seq, found, named⟩
  have visits : ∀ entry ∈ sink.nodeLookup.nonTemporal.toList,
      sink.plainNode env active emitted entry =
        .ok (if active.contains entry.1 || emitted.contains entry.2 then none
          else (sink.db.getNode entry.2).map StoredNode.record) := by
    rintro ⟨id, nodeId⟩ member
    obtain ⟨-, node, seq, found, rfl⟩ := indexed member
    rw [plainNode]
    split
    · rfl
    · rw [readNodeRecord_eq_ok known found, found]
      rfl
  refine ⟨_, collectM_eq_ok visits, ?_, fun record => ?_⟩
  · have distinct : (sink.nodeLookup.nonTemporal.toList.map Prod.fst).Nodup := by
      rw [Std.ExtTreeMap.map_fst_toList_eq_keys]
      exact Std.ExtTreeMap.nodup_keys
    refine nodup_map_filterMap distinct ?_
    rintro ⟨id, nodeId⟩ member record held
    obtain ⟨-, node, seq, found, rfl⟩ := indexed member
    split at held
    · cases held
    · rw [found, Option.map_some, Option.some.injEq] at held
      rw [← held]
      rfl
  · rw [List.mem_filterMap]
    constructor
    · rintro ⟨⟨id, nodeId⟩, member, held⟩
      obtain ⟨last, node, seq, found, rfl⟩ := indexed member
      split at held
      · cases held
      · next fresh =>
          rw [Bool.or_eq_true, not_or, List.contains_iff_mem, shown,
            Std.ExtTreeSet.contains_iff_mem, retracted] at fresh
          rw [found, Option.map_some, Option.some.injEq] at held
          refine ⟨nodeId, node, seq, found, last, ?_, fresh.1, held.symm⟩
          rw [← Bool.not_eq_true]
          exact fun project => fresh.2 ⟨node, seq, found, project, fresh.1⟩
    · rintro ⟨nodeId, node, seq, found, last, ordinary, free, rfl⟩
      have member : (node.id, nodeId) ∈ sink.nodeLookup.nonTemporal.toList := by
        rw [Std.ExtTreeMap.mem_toList_iff_getElem?_eq_some, nonTemporal_eq coherent]
        exact last
      refine ⟨(node.id, nodeId), member, ?_⟩
      have fresh : ¬ (active.contains node.id || emitted.contains nodeId) = true := by
        rw [Bool.or_eq_true, not_or, List.contains_iff_mem, shown,
          Std.ExtTreeSet.contains_iff_mem, retracted]
        refine ⟨free, ?_⟩
        rintro ⟨other, otherSeq, at_node, project, -⟩
        rw [found, Option.some.injEq, StoredNode.node.injEq] at at_node
        obtain ⟨rfl, -⟩ := at_node
        rw [ordinary] at project
        cases project
      rw [if_neg fresh, found]
      rfl

/-- The current read of a coherent sink succeeds, with the five parts in order. -/
theorem readAllRecords_eq (coherent : Coherent env sink) (known : sink.db.Known) :
    ∃ segments : Segments, sink.readAllRecords env = .ok segments.slice ∧
      segments.Of env sink.db := by
  obtain ⟨active, activeEq, retracted⟩ := activeDeletedIds_spec coherent
  obtain ⟨stale, staleEq, outdated⟩ := staleTombstoneRecordIds_spec coherent retracted
  obtain ⟨projects, projectsEq, mem_projects⟩ :
      ∃ projects, collectM (sink.projectNode env active) _ = .ok projects ∧ _ :=
    projectNodes_spec known retracted
  have shown : ∀ nodeId, nodeId ∈ projects.map Prod.fst ↔ ∃ node seq,
      sink.db.getNode nodeId = some (.node node seq) ∧ isProjectId node.id = true ∧
        ¬ sink.db.Suppressed node.id := by
    intro nodeId
    rw [List.mem_map]
    constructor
    · rintro ⟨⟨_, record⟩, member, rfl⟩
      obtain ⟨node, seq, found, project, free, -⟩ := (mem_projects _ _).mp member
      exact ⟨node, seq, found, project, free⟩
    · rintro ⟨node, seq, found, project, free⟩
      exact ⟨(nodeId, .node node), (mem_projects _ _).mpr ⟨node, seq, found, project, free, rfl⟩,
        rfl⟩
  obtain ⟨snapshots, snapshotsEq, mem_snapshots⟩ := snapshotNodes_spec coherent known shown
  obtain ⟨nodes, nodesEq, nodesDistinct, mem_nodes⟩ :=
    plainNodes_spec coherent known retracted shown
  obtain ⟨tombstones, tombstonesEq, tombstonesDistinct, mem_tombstones⟩ :=
    currentTombstones_spec coherent known outdated
  obtain ⟨versions, versionsEq, distinct, mem_versions⟩ := latestEdgeVersions_spec coherent active
  -- Each edge version is read as the edge record it stands for.
  have read : ∀ entry ∈ versions, ∃ record,
      sink.readEdgeRecord env entry.1 entry.2 = .ok record ∧ record.id = entry.1 ∧
        ∃ edge, sink.db.getEdge entry.2 = some edge ∧ record = .edge edge.record := by
    rintro ⟨id, edgeId⟩ member
    obtain ⟨-, last⟩ := (mem_versions id edgeId).mp member
    obtain ⟨⟨stored, at_edge, named⟩, -⟩ := lastIdx_eq_some_iff_greatest.mp last
    match stored, at_edge, named with
    | .node node, _, named => simp [Stored.edgeOf] at named
    | .edge edge, at_edge, named =>
        obtain rfl : edge.record.id = id := by simpa [Stored.edgeOf] using named
        have found := getEdge_eq_some_iff.mpr at_edge
        exact ⟨.edge edge.record, readEdgeRecord_eq_ok known found, rfl, edge, found, rfl⟩
  obtain ⟨edges, edgesEq⟩ := exists_mapM_ok
    (f := fun (entry : String × Nat) => sink.readEdgeRecord env entry.1 entry.2)
    fun entry member => ⟨_, (read entry member).choose_spec.1⟩
  refine ⟨⟨projects.map Prod.snd, snapshots, nodes, tombstones, edges⟩, ?_, {
    projects := fun record => ?_
    snapshots := mem_snapshots
    nodes := mem_nodes
    tombstones := mem_tombstones
    edges := fun record => ?_
    nodesDistinct := nodesDistinct
    tombstonesDistinct := tombstonesDistinct
    edgesDistinct := ?_ }⟩
  · simp only [readAllRecords, activeEq, staleEq, projectsEq, snapshotsEq, nodesEq, tombstonesEq,
      versionsEq, bind, Except.bind]
    rw [edgesEq]
    rfl
  · rw [List.mem_map]
    constructor
    · rintro ⟨⟨nodeId, _⟩, member, rfl⟩
      exact ⟨nodeId, (mem_projects _ _).mp member⟩
    · rintro ⟨nodeId, shows⟩
      exact ⟨(nodeId, record), (mem_projects _ _).mpr shows, rfl⟩
  · rw [mem_of_mapM_ok edgesEq]
    constructor
    · rintro ⟨⟨id, edgeId⟩, member, made⟩
      obtain ⟨free, last⟩ := (mem_versions id edgeId).mp member
      obtain ⟨_, made', named, edge, found, rfl⟩ := read _ member
      obtain rfl : edge.record.id = id := named
      refine ⟨edgeId, edge, found, last, fun suppressed => free ((retracted _).mpr suppressed), ?_⟩
      exact Except.ok.inj (made.symm.trans made')
    · rintro ⟨edgeId, edge, found, last, free, rfl⟩
      refine ⟨(edge.record.id, edgeId), (mem_versions _ _).mpr ⟨?_, last⟩,
        readEdgeRecord_eq_ok known found⟩
      exact fun inside => free ((retracted _).mp inside)
  · have names : edges.map GraphRecord.id = versions.map Prod.fst := by
      have turns := forall₂_of_mapM_ok edgesEq
      refine List.ext_getElem (by simp [turns.length_eq]) fun index left right => ?_
      rw [List.length_map] at left right
      have made := List.Forall₂.get turns right left
      obtain ⟨_, made', named, -⟩ := read versions[index] (List.getElem_mem right)
      rw [List.getElem_map, List.getElem_map, ← named]
      exact congrArg GraphRecord.id (Except.ok.inj (made.symm.trans made'))
    rw [names]
    exact distinct

end Segments

end EmbeddedAletheiaSink

end Egregore
