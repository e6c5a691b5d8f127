import Egregore.Adapters.WriteLog
import Egregore.Base.Dedup
import Egregore.Query.Liveness

/-!
# The history read and the append-only log

`read_all_records_including_superseded` against the log of the writes. Its slice is the live
edges and then everything else as it was written; `history_faithful_iff` says for which logs
the tombstones in it are those that end the history of their target.
-/

namespace Egregore

open Base Database

namespace Database

/-- No record of the database has temporal metadata or a project id. -/
def Ordinary (db : Database) : Prop :=
  ∀ stored ∈ db, stored.record.temporal = none ∧ isProjectId stored.record.id = false

variable {db : Database}

/-- An ordinary database holds no temporal node and none of a project. -/
theorem Ordinary.node (ordinary : db.Ordinary) {nodeId : Nat} {node : NodeRecord}
    {seq : Option Nat} (found : db.getNode nodeId = some (.node node seq)) :
    node.temporal = none ∧ isProjectId node.id = false :=
  ordinary _ (List.mem_of_getElem? (getNode_eq_some_iff.mp found))

/-- The record that the history read shows for a physical node. -/
def shownAt (db : Database) (active : StrSet) (nodeId : Nat) : Option GraphRecord :=
  match db.getNode nodeId with
  | none => none
  | some (.node node _) => some (.node node)
  | some (.tombstone tombstone _) =>
      if lastIdx (Stored.tombstoneOf tombstone.id) db = some nodeId ∧
          active.contains tombstone.deletedId then some (.tombstone tombstone)
      else none

/-- The node versions and the tombstones in force, as they were written. -/
def history (db : Database) (active : StrSet) : List GraphRecord :=
  (List.range db.length).filterMap (db.shownAt active)

/-- The same, with their sequence numbers. -/
def stampedHistory (db : Database) (active : StrSet) : List (Nat × GraphRecord) :=
  (List.range db.length).filterMap fun nodeId =>
    (db.shownAt active nodeId).map fun record => ((db.seqAt nodeId).getD 0, record)

/-- The history ascends by number. -/
theorem stampedHistory_ascending (stamped : db.Stamped) (active : StrSet) :
    (db.stampedHistory active).Pairwise fun entry later => entry.1 < later.1 := by
  rw [stampedHistory, List.pairwise_filterMap]
  refine List.Pairwise.imp_of_mem (fun {nodeId later} member member' less => ?_)
    List.pairwise_lt_range
  intro entry found other found'
  obtain ⟨_, -, rfl⟩ := Option.map_eq_some_iff.mp found
  obtain ⟨_, -, rfl⟩ := Option.map_eq_some_iff.mp found'
  obtain ⟨seq, at_node⟩ := stamped.exists_seqAt (List.mem_range.mp member)
  obtain ⟨next, at_later⟩ := stamped.exists_seqAt (List.mem_range.mp member')
  simpa [at_node, at_later] using (stamped.seqAt_lt_iff at_node at_later).mpr less

/-- Without the numbers it is the history. -/
theorem map_snd_stampedHistory (db : Database) (active : StrSet) :
    (db.stampedHistory active).map Prod.snd = db.history active := by
  rw [stampedHistory, history, List.map_filterMap]
  congr 1
  funext nodeId
  cases db.shownAt active nodeId <;> rfl

/-- Sequence numbers tell the objects apart. -/
theorem Stamped.seqAt_injOn (stamped : db.Stamped) {nodeId other : Nat}
    (inside : nodeId < db.length) (inside' : other < db.length)
    (same : (db.seqAt nodeId).getD 0 = (db.seqAt other).getD 0) : nodeId = other := by
  obtain ⟨seq, at_node⟩ := stamped.exists_seqAt inside
  obtain ⟨next, at_other⟩ := stamped.exists_seqAt inside'
  rw [at_node, at_other, Option.getD_some, Option.getD_some] at same
  subst same
  rcases Nat.lt_trichotomy nodeId other with less | rfl | less
  · exact absurd ((stamped.seqAt_lt_iff at_node at_other).mpr less) (Nat.lt_irrefl _)
  · rfl
  · exact absurd ((stamped.seqAt_lt_iff at_other at_node).mpr less) (Nat.lt_irrefl _)

end Database

namespace EmbeddedAletheiaSink

variable {env : Aletheia} {sink : EmbeddedAletheiaSink} {log written : List GraphRecord}

section Read

/-- Without temporal metadata there are no commit snapshots. -/
theorem commitNodes_eq_nil (coherent : Coherent env sink) (ordinary : sink.db.Ordinary) :
    sink.commitNodes = [] := by
  rw [List.eq_nil_iff_forall_not_mem]
  rintro ⟨id, nodeId⟩ member
  obtain ⟨commit, candidate, best, -⟩ := (mem_commitNodes coherent).mp member
  obtain ⟨node, seq, found, -, read, observed⟩ := getNode_of_bestOf best
  have plain := (temporalKey_none_iff read).mpr (ordinary.node found).1
  simp [atCommit, plain] at observed

/-- An ordinary database has no segment of projects. -/
theorem Segments.Of.projects_eq_nil {segments : Segments} (parts : segments.Of env sink.db)
    (ordinary : sink.db.Ordinary) : segments.projects = [] := by
  rw [List.eq_nil_iff_forall_not_mem]
  intro record member
  obtain ⟨nodeId, node, seq, found, project, -⟩ := (parts.projects record).mp member
  rw [(ordinary.node found).2] at project
  cases project

/-- It has no segment of snapshots. -/
theorem Segments.Of.snapshots_eq_nil {segments : Segments} (parts : segments.Of env sink.db)
    (coherent : Coherent env sink) (ordinary : sink.db.Ordinary) : segments.snapshots = [] := by
  rw [List.eq_nil_iff_forall_not_mem]
  intro record member
  obtain ⟨id, commit, candidate, node, seq, best, -⟩ := (parts.snapshots record).mp member
  have listed := (mem_commitNodes coherent).mpr ⟨commit, candidate, best, rfl⟩
  rw [commitNodes_eq_nil coherent ordinary] at listed
  cases listed

/-- The physical nodes have distinct sequence numbers. -/
theorem map_seqAt_getAllNodeIds_nodup (coherent : Coherent env sink) :
    ((env.getAllNodeIds sink.db).map fun nodeId => (sink.db.seqAt nodeId).getD 0).Nodup := by
  refine List.Nodup.map_on (fun nodeId member other member' same => ?_)
    ((env.getAllNodeIds_perm sink.db).nodup_iff.mpr (List.nodup_range.filter _))
  rw [(env.getAllNodeIds_perm sink.db).mem_iff, mem_nodeIds, Option.isSome_iff_exists]
    at member member'
  exact coherent.stamped.seqAt_injOn (lt_length_of_getNode member.choose_spec)
    (lt_length_of_getNode member'.choose_spec) same

/-- A node version with its number. -/
def numberedNode (number : Option Nat) : StoredNode → Option (Nat × GraphRecord)
  | .tombstone _ _ => none
  | .node node _ => some (number.getD 0, .node node)

/-- The versions that the history read collects. -/
theorem versionedNodes_eq (coherent : Coherent env sink) (known : sink.db.Known)
    (ordinary : sink.db.Ordinary) :
    ∃ versions, collectM (sink.versionedNode env) (env.getAllNodeIds sink.db) = .ok versions ∧
      (versions.map Prod.fst).Nodup ∧ ∀ entry, entry ∈ versions ↔ ∃ nodeId node seq,
        sink.db.getNode nodeId = some (.node node seq) ∧
          entry = ((sink.db.seqAt nodeId).getD 0, .node node) := by
  have stamp : ∀ {nodeId node seq}, sink.db.getNode nodeId = some (.node node seq) →
      sink.db.seqAt nodeId = seq := by
    intro nodeId node seq found
    rw [seqAt, getNode_eq_some_iff.mp found]
    rfl
  have visits : ∀ nodeId ∈ env.getAllNodeIds sink.db, sink.versionedNode env nodeId =
      .ok ((sink.db.getNode nodeId).bind (numberedNode (sink.db.seqAt nodeId))) := by
    intro nodeId member
    rw [(env.getAllNodeIds_perm sink.db).mem_iff, mem_nodeIds, Option.isSome_iff_exists] at member
    obtain ⟨stored, found⟩ := member
    rw [versionedNode, commitNodes_eq_nil coherent ordinary]
    cases stored with
    | tombstone record seq => simp [found, numberedNode]
    | node node seq =>
        simp [found, (ordinary.node found).2, readNodeRecord_eq_ok known found, stamp found,
          Except.map, numberedNode]
  refine ⟨_, collectM_eq_ok visits, ?_, fun entry => ?_⟩
  · refine nodup_map_filterMap (map_seqAt_getAllNodeIds_nodup coherent) fun nodeId _ entry found => ?_
    obtain ⟨stored, -, made⟩ := Option.bind_eq_some_iff.mp found
    cases stored with
    | tombstone record seq => cases made
    | node node seq => exact (Option.some.inj made) ▸ rfl
  · rw [List.mem_filterMap]
    constructor
    · rintro ⟨nodeId, -, found⟩
      obtain ⟨stored, at_node, made⟩ := Option.bind_eq_some_iff.mp found
      cases stored with
      | tombstone record seq => cases made
      | node node seq => exact ⟨nodeId, node, seq, at_node, (Option.some.inj made).symm⟩
    · rintro ⟨nodeId, node, seq, found, rfl⟩
      refine ⟨nodeId, ?_, by rw [found]; rfl⟩
      rw [(env.getAllNodeIds_perm sink.db).mem_iff, mem_nodeIds, found]
      rfl

/-- The history read: the live edges, then the history as it was written. -/
theorem readAllRecordsIncludingSuperseded_eq (coherent : Coherent env sink)
    (known : sink.db.Known) (ordinary : sink.db.Ordinary) :
    ∃ active : StrSet, (∀ id, id ∈ active ↔ sink.db.Suppressed id) ∧
      ∃ edges : List GraphRecord,
        (∀ record, record ∈ edges ↔ ∃ edgeId edge, sink.db.getEdge edgeId = some edge ∧
          lastIdx (Stored.edgeOf edge.record.id) sink.db = some edgeId ∧
          ¬ sink.db.Suppressed edge.record.id ∧ record = .edge edge.record) ∧
        sink.readAllRecordsIncludingSuperseded env = .ok (edges ++ sink.db.history active) := by
  obtain ⟨active, -, retracted⟩ := activeDeletedIds_spec coherent
  obtain ⟨segments, current, parts⟩ := readAllRecords_eq coherent known
  obtain ⟨versions, versionsEq, versionsDistinct, mem_versions⟩ :=
    versionedNodes_eq coherent known ordinary
  have noProjects := parts.projects_eq_nil ordinary
  have noSnapshots := parts.snapshots_eq_nil coherent ordinary
  have areNodes : ∀ record ∈ segments.nodes, ∃ node : NodeRecord, record = .node node ∧
      node.temporal = none ∧ isProjectId node.id = false := by
    intro record member
    obtain ⟨nodeId, node, seq, found, -, -, -, rfl⟩ := (parts.nodes record).mp member
    exact ⟨node, rfl, ordinary.node found⟩
  have areTombstones : ∀ record ∈ segments.tombstones, ∃ tombstone, record = .tombstone tombstone := by
    intro record member
    obtain ⟨nodeId, tombstone, seq, -, -, -, rfl⟩ := (parts.tombstones record).mp member
    exact ⟨tombstone, rfl⟩
  have areEdges : ∀ record ∈ segments.edges, ∃ edge, record = .edge edge := by
    intro record member
    obtain ⟨edgeId, edge, -, -, -, rfl⟩ := (parts.edges record).mp member
    exact ⟨edge.record, rfl⟩
  have tombstones : segments.slice.filter isTombstone =
      segments.tombstones := by
    have nodes : segments.nodes.filter isTombstone = [] := by
      rw [List.filter_eq_nil_iff]
      intro record member
      obtain ⟨node, rfl, -⟩ := areNodes record member
      simp [isTombstone]
    have edges : segments.edges.filter isTombstone = [] := by
      rw [List.filter_eq_nil_iff]
      intro record member
      obtain ⟨edge, rfl⟩ := areEdges record member
      simp [isTombstone]
    have all : segments.tombstones.filter isTombstone =
        segments.tombstones := by
      rw [List.filter_eq_self]
      intro record member
      obtain ⟨tombstone, rfl⟩ := areTombstones record member
      rfl
    simp [Segments.slice, noProjects, noSnapshots, nodes, edges, all]
  have kept : segments.slice.filter keptAhead = segments.edges := by
    have nodes : segments.nodes.filter keptAhead = [] := by
      rw [List.filter_eq_nil_iff]
      intro record member
      obtain ⟨node, rfl, plain, other⟩ := areNodes record member
      simp [keptAhead, plain, other]
    have none_ : segments.tombstones.filter keptAhead = [] := by
      rw [List.filter_eq_nil_iff]
      intro record member
      obtain ⟨tombstone, rfl⟩ := areTombstones record member
      simp [keptAhead]
    have all : segments.edges.filter keptAhead = segments.edges := by
      rw [List.filter_eq_self]
      intro record member
      obtain ⟨edge, rfl⟩ := areEdges record member
      rfl
    simp [Segments.slice, noProjects, noSnapshots, nodes, none_, all]
  -- The collected versions and tombstones are the history, so sorting puts them in its order.
  have sorted : ((versions ++ segments.tombstones.map fun record =>
      (sink.tombstoneSeq record.id, record)).mergeSort fun entry other => entry.1 ≤ other.1) =
        sink.db.stampedHistory active := by
    apply mergeSort_eq_of_ascending _ _ (stampedHistory_ascending coherent.stamped active)
    · refine List.Nodup.append (List.Nodup.of_map _ versionsDistinct) ?_ ?_
      · refine List.Nodup.of_map (fun entry => entry.2.id) ?_
        rw [List.map_map]
        exact parts.tombstonesDistinct
      · intro entry member member'
        obtain ⟨nodeId, node, seq, -, rfl⟩ := (mem_versions entry).mp member
        obtain ⟨record, inside, same⟩ := List.mem_map.mp member'
        obtain ⟨tombstone, rfl⟩ := areTombstones record inside
        cases (Prod.mk.inj same).2
    · intro entry
      rw [List.mem_append, mem_versions, List.mem_map, stampedHistory, List.mem_filterMap]
      constructor
      · rintro (⟨nodeId, node, seq, found, rfl⟩ | ⟨record, member, rfl⟩)
        · exact ⟨nodeId, List.mem_range.mpr (lt_length_of_getNode found), by
            rw [shownAt, found]; rfl⟩
        · obtain ⟨nodeId, tombstone, seq, found, last, suppressed, rfl⟩ :=
            (parts.tombstones record).mp member
          have contained : active.contains tombstone.deletedId = true :=
            Std.ExtTreeSet.contains_iff_mem.mpr ((retracted _).mpr suppressed)
          have indexed := (coherent.tombstoneIds tombstone.id).trans last
          have seqs : sink.tombstoneSeq tombstone.id = (sink.db.seqAt nodeId).getD 0 := by
            rw [tombstoneSeq, indexed, Option.bind_some, coherent.tombstoneSeqs _ _ indexed]
          refine ⟨nodeId, List.mem_range.mpr (lt_length_of_getNode found), ?_⟩
          simp [shownAt, found, last, contained, seqs]
      · rintro ⟨nodeId, -, made⟩
        obtain ⟨record, shows, rfl⟩ := Option.map_eq_some_iff.mp made
        rw [shownAt] at shows
        split at shows
        · cases shows
        · next node seq found =>
            obtain rfl := Option.some.inj shows
            exact Or.inl ⟨nodeId, node, seq, found, rfl⟩
        · next tombstone seq found =>
            split at shows
            · next held =>
                obtain rfl := Option.some.inj shows
                have suppressed := (retracted _).mp (Std.ExtTreeSet.contains_iff_mem.mp held.2)
                have indexed := (coherent.tombstoneIds tombstone.id).trans held.1
                refine Or.inr ⟨.tombstone tombstone, (parts.tombstones _).mpr
                  ⟨nodeId, tombstone, seq, found, held.1, suppressed, rfl⟩, ?_⟩
                rw [GraphRecord.id_tombstone, tombstoneSeq, indexed, Option.bind_some,
                  coherent.tombstoneSeqs _ _ indexed]
            · cases shows
  refine ⟨active, retracted, segments.edges, parts.edges, ?_⟩
  rw [← map_snd_stampedHistory, ← sorted]
  simp only [readAllRecordsIncludingSuperseded, current, versionsEq, tombstones, kept, bind,
    Except.bind]
  rfl

end Read

end EmbeddedAletheiaSink

namespace Database

variable {db : Database} {active : StrSet}

/-- Visiting every position of a list visits its elements. -/
theorem filterMap_range_getElem? {α β : Type*} (visit : α → Option β) (items : List α) :
    (List.range items.length).filterMap (fun index => items[index]?.bind visit) =
      items.filterMap visit := by
  induction items using List.reverseRecOn with
  | nil => rfl
  | append_singleton items last ih =>
      rw [List.length_append, List.length_singleton, List.range_succ, List.filterMap_append,
        List.filterMap_append, ← ih]
      congr 1
      · apply List.filterMap_congr
        intro index member
        rw [List.getElem?_append_left (List.mem_range.mp member)]
      · simp [List.filterMap_cons]

/-- The history has every node version, in the order of the writes. -/
theorem filter_writesNode_history (id : String) :
    (db.history active).filter (GraphRecord.writesNode id) =
      (db.map Stored.record).filter (GraphRecord.writesNode id) := by
  rw [history, List.filter_filterMap, ← List.filterMap_eq_filter, List.filterMap_map,
    ← filterMap_range_getElem? _ db]
  apply List.filterMap_congr
  intro nodeId _
  rw [shownAt, getNode]
  cases db[nodeId]? with
  | none => rfl
  | some stored =>
      rcases stored with (node | tombstone) | edge
      · rfl
      · simp only [Option.bind_some, Stored.node?]
        split <;> rfl
      · rfl

/-- The tombstones of the history are those of suppressed ids. -/
theorem suppressed_of_mem_history (retracted : ∀ id, id ∈ active ↔ db.Suppressed id)
    {record : GraphRecord} (member : record ∈ db.history active) {id : String}
    (deletes : record.deletes id = true) : db.Suppressed id := by
  obtain ⟨nodeId, -, shows⟩ := List.mem_filterMap.mp member
  rw [shownAt] at shows
  split at shows
  · cases shows
  · next node seq found =>
      obtain rfl := Option.some.inj shows
      cases deletes
  · next tombstone seq found =>
      split at shows
      · next held =>
          obtain rfl := Option.some.inj shows
          simp only [GraphRecord.deletes, decide_eq_true_eq] at deletes
          exact deletes ▸ (retracted _).mp (Std.ExtTreeSet.contains_iff_mem.mp held.2)
      · cases shows

/-- Its history has no temporal fields. -/
theorem temporal_of_mem_history (ordinary : db.Ordinary) {record : GraphRecord}
    (member : record ∈ db.history active) : record.temporal = none := by
  obtain ⟨nodeId, -, shows⟩ := List.mem_filterMap.mp member
  rw [shownAt] at shows
  split at shows
  · cases shows
  · next node seq found =>
      obtain rfl := Option.some.inj shows
      exact (ordinary.node found).1
  · split at shows
    · obtain rfl := Option.some.inj shows
      rfl
    · cases shows

/-- The tombstones of the whole slice are those of suppressed ids. -/
theorem suppressed_of_deletes (retracted : ∀ id, id ∈ active ↔ db.Suppressed id)
    {edges : List GraphRecord} (areEdges : ∀ record ∈ edges, ∃ edge, record = .edge edge)
    {id : String} (shown : ∃ record ∈ edges ++ db.history active, record.deletes id = true) :
    db.Suppressed id := by
  obtain ⟨record, member, deletes⟩ := shown
  rcases List.mem_append.mp member with live | stored
  · obtain ⟨edge, rfl⟩ := areEdges record live
    cases deletes
  · exact suppressed_of_mem_history retracted stored deletes

/-- The tombstone in force of an id follows everything else that the history has of it. -/
theorem history_split (retracted : ∀ id, id ∈ active ↔ db.Suppressed id)
    (ordinary : db.Ordinary) {id : String} (suppressed : db.Suppressed id) :
    ∃ before tombstone after, db.history active = before ++ .tombstone tombstone :: after ∧
      tombstone.deletedId = id ∧ ∀ record ∈ after, record.writes id = false := by
  obtain ⟨nodeId, tombstone, seq, found, deletes, last, fresh⟩ := suppressed
  have inside := lt_length_of_getNode found
  have contained : active.contains tombstone.deletedId = true := by
    rw [Std.ExtTreeSet.contains_iff_mem, retracted, deletes]
    exact ⟨nodeId, tombstone, seq, found, deletes, last, fresh⟩
  have shows : db.shownAt active nodeId = some (.tombstone tombstone) := by
    simp [shownAt, found, last, contained]
  have positions : List.range db.length =
      List.range nodeId ++ nodeId :: List.range' (nodeId + 1) (db.length - nodeId - 1) := by
    have joined := @List.range'_append_1 0 nodeId (db.length - nodeId - 1 + 1)
    rw [Nat.zero_add, List.range'_succ] at joined
    rw [List.range_eq_range', List.range_eq_range', joined]
    congr 1
    omega
  refine ⟨(List.range nodeId).filterMap (db.shownAt active), tombstone,
    (List.range' (nodeId + 1) (db.length - nodeId - 1)).filterMap (db.shownAt active), ?_, deletes,
    fun record member => ?_⟩
  · rw [history, positions, List.filterMap_append, List.filterMap_cons, shows]
  · obtain ⟨later, after, shown⟩ := List.mem_filterMap.mp member
    rw [List.mem_range'_1] at after
    rw [shownAt] at shown
    split at shown
    · cases shown
    · next node nodeSeq at_later =>
        obtain rfl := Option.some.inj shown
        by_contra written
        rw [Bool.not_eq_false] at written
        have named : node.id = id := by simpa [GraphRecord.writes] using written
        refine fresh ⟨later, _, by omega, getNode_eq_some_iff.mp at_later, ?_⟩
        simp [Stored.revives, Stored.plainNodeOf, named, (ordinary.node at_later).1]
    · split at shown
      · obtain rfl := Option.some.inj shown
        rfl
      · cases shown

end Database

/-- The last record of `id` in the log is a tombstone of it. -/
def EndsInTombstone (log : List GraphRecord) (id : String) : Prop :=
  unanswered (GraphRecord.deletes id) (GraphRecord.writes id) log = true

/-- The history slice keeps the append-only contract: all node versions in the order of their
writes, a tombstone exactly for the ids that end in one, after their every version, and
liveness over the slice as the log has it. -/
structure KeepsHistory (log written slice : List GraphRecord) : Prop where
  versions : ∀ id, slice.filter (GraphRecord.writesNode id) =
    written.filter (GraphRecord.writesNode id)
  tombstone : ∀ id, (∃ record ∈ slice, record.deletes id = true) ↔ EndsInTombstone log id
  follows : ∀ id, EndsInTombstone log id →
    unanswered (GraphRecord.deletes id) (GraphRecord.writesNode id) slice = true
  deleted : ∀ id, (∃ record ∈ written, record.writesNode id = true) →
    ((Liveness.new slice).deleted id = true ↔ EndsInTombstone log id)
  edges : ∀ edge, GraphRecord.edge edge ∈ slice → ¬ EndsInTombstone log edge.id →
    (Liveness.new slice).deleted edge.id = false

/-- Every id that ends in a tombstone has one whose record id is not used for another id. -/
def KeepsTombstones (log : List GraphRecord) : Prop :=
  ∀ id, EndsInTombstone log id → ∃ tombstoneId, RetractedBy log tombstoneId id

namespace EmbeddedAletheiaSink

variable {env : Aletheia} {sink : EmbeddedAletheiaSink} {log written : List GraphRecord}

/-- A retracted ID ends in a tombstone. -/
theorem endsInTombstone_of_retractedBy {tombstoneId id : String}
    (plain : ∀ record ∈ log, record.temporal = none) (retracted : RetractedBy log tombstoneId id) :
    EndsInTombstone log id := by
  obtain ⟨before, tombstone, after, rfl, -, deletes, silent⟩ := retracted
  refine unanswered_iff.mpr ⟨before, _, after, rfl, by simp [GraphRecord.deletes, deletes], ?_⟩
  intro record member
  rw [← GraphRecord.revives_eq_writes (plain record (by simp [member]))]
  exact (silent record member).1

/-- A run of ordinary writes leaves an ordinary database. -/
theorem WriteRun.ordinary (run : WriteRun env log written sink)
    (plain : ∀ record ∈ log, record.temporal = none)
    (noProjects : ∀ record ∈ log, isProjectId record.id = false) : sink.db.Ordinary := by
  have records := run.records_plain plain
  intro stored member
  have inside : stored.record ∈ written := records ▸ List.mem_map_of_mem member
  exact ⟨plain _ (run.sublist.subset inside), noProjects _ (run.sublist.subset inside)⟩

/-- The history read of a run succeeds, and keeps the append-only contract exactly when the log
keeps its tombstones. -/
theorem history_faithful_iff (run : WriteRun env log written sink)
    (plain : ∀ record ∈ log, record.temporal = none)
    (noProjects : ∀ record ∈ log, isProjectId record.id = false) :
    ∃ slice, sink.readAllRecordsIncludingSuperseded env = .ok slice ∧
      (KeepsHistory log written slice ↔ KeepsTombstones log) := by
  have records := run.records_plain plain
  have ordinary := run.ordinary plain noProjects
  obtain ⟨active, retracted, edges, mem_edges, read⟩ :=
    readAllRecordsIncludingSuperseded_eq run.coherent run.reachable.known ordinary
  have suppressed_iff : ∀ id, sink.db.Suppressed id ↔ ∃ tombstoneId, RetractedBy log tombstoneId id :=
    fun id => suppressed_iff_exists.trans (exists_congr fun tombstoneId => suppressedBy_iff run _ _)
  have areEdges : ∀ record ∈ edges, ∃ edge, record = .edge edge ∧ ¬ sink.db.Suppressed edge.id := by
    intro record member
    obtain ⟨edgeId, edge, -, -, free, rfl⟩ := (mem_edges record).mp member
    exact ⟨edge.record, rfl, free⟩
  have shown : ∀ id, (∃ record ∈ edges ++ sink.db.history active, record.deletes id = true) →
      sink.db.Suppressed id := fun id => suppressed_of_deletes retracted fun record member =>
    (areEdges record member).imp fun _ named => named.1
  have open_ : ∀ id, sink.db.Suppressed id →
      unanswered (GraphRecord.deletes id) (GraphRecord.writes id)
        (edges ++ sink.db.history active) = true := by
    intro id suppressed
    obtain ⟨before, tombstone, after, split, deletes, silent⟩ :=
      history_split retracted ordinary suppressed
    refine unanswered_iff.mpr ⟨edges ++ before, .tombstone tombstone, after, ?_, ?_, silent⟩
    · rw [split, List.append_assoc]
    · simp [GraphRecord.deletes, deletes]
  have deleted_iff : ∀ id, (Liveness.new (edges ++ sink.db.history active)).deleted id = true ↔
      sink.db.Suppressed id := by
    intro id
    have untemporal : Liveness.temporalId (edges ++ sink.db.history active) id = false := by
      rw [Liveness.temporalId, List.any_eq_false]
      intro record member
      rcases List.mem_append.mp member with live | stored
      · obtain ⟨edgeId, edge, found, -, -, rfl⟩ := (mem_edges record).mp live
        have untimed : (GraphRecord.edge edge.record).temporal = none :=
          (ordinary _ (List.mem_of_getElem? (getEdge_eq_some_iff.mp found))).1
        simp [untimed]
      · simp [temporal_of_mem_history ordinary stored]
    rw [Liveness.deleted_new, untemporal, Bool.not_false, Bool.true_and]
    exact ⟨fun retracted => shown id (exists_of_unanswered retracted), open_ id⟩
  refine ⟨_, read, ?_⟩
  constructor
  · intro keeps id ends
    exact (suppressed_iff id).mp (shown id ((keeps.tombstone id).mpr ends))
  · intro keeps
    have ends_iff : ∀ id, sink.db.Suppressed id ↔ EndsInTombstone log id := by
      intro id
      rw [suppressed_iff]
      refine ⟨?_, keeps id⟩
      rintro ⟨_, retracted⟩
      exact endsInTombstone_of_retractedBy plain retracted
    exact {
      versions := fun id => by
        have none_ : edges.filter (GraphRecord.writesNode id) = [] := by
          rw [List.filter_eq_nil_iff]
          intro record member
          obtain ⟨edge, rfl, -⟩ := areEdges record member
          simp [GraphRecord.writesNode]
        rw [List.filter_append, none_, List.nil_append, filter_writesNode_history, records]
      tombstone := fun id => by
        rw [← ends_iff]
        exact ⟨shown id, fun suppressed => exists_of_unanswered (open_ id suppressed)⟩
      follows := fun id ends => by
        obtain ⟨before, event, after, split, deletes, silent⟩ :=
          unanswered_iff.mp (open_ id ((ends_iff id).mpr ends))
        refine unanswered_iff.mpr ⟨before, event, after, split, deletes, fun record member => ?_⟩
        have unwritten := silent record member
        rw [← Bool.not_eq_true, GraphRecord.writes_eq_true, not_or] at unwritten
        exact Bool.not_eq_true _ ▸ unwritten.1
      deleted := fun id _ => (deleted_iff id).trans (ends_iff id)
      edges := fun edge _ open_ => by
        rw [← Bool.not_eq_true, deleted_iff, ends_iff]
        exact open_ }

/-- A node, its tombstone, and another target's tombstone under the same record id. -/
def retargetedLog : List GraphRecord :=
  [.node { id := "codegraph:v1:a", kind := .symbol, schemaVersion := 1 },
    .tombstone { id := "codegraph:v1:t", schemaVersion := 1, deletedId := "codegraph:v1:a" },
    .tombstone { id := "codegraph:v1:t", schemaVersion := 1, deletedId := "codegraph:v1:b" }]

def retargetedSink : EmbeddedAletheiaSink :=
  ((runLog sampleAletheia {} retargetedLog).map Prod.snd).getD {}

/-- The run of the retargeted tombstone. -/
theorem retargetedLog_run : WriteRun sampleAletheia retargetedLog retargetedLog retargetedSink := by
  have written : (runLog sampleAletheia {} retargetedLog).map Prod.fst = some retargetedLog := by
    decide
  obtain ⟨⟨_, sink⟩, ran, rfl⟩ := Option.map_eq_some_iff.mp written
  have same : retargetedSink = sink := by rw [retargetedSink, ran]; rfl
  rw [same]
  exact WriteRun.start.runLog ran

/-- The equivalence at this run. -/
theorem retargetedLog_faithful_iff :
    ∃ slice, retargetedSink.readAllRecordsIncludingSuperseded sampleAletheia = .ok slice ∧
      (KeepsHistory retargetedLog retargetedLog slice ↔ KeepsTombstones retargetedLog) :=
  history_faithful_iff retargetedLog_run (by decide) (by decide)

/-- Its database is ordinary. -/
theorem retargetedSink_ordinary : retargetedSink.db.Ordinary := by
  have records := retargetedLog_run.records_plain (by decide)
  intro stored member
  have inside : stored.record ∈ retargetedLog := records ▸ List.mem_map_of_mem member
  revert inside
  generalize stored.record = record
  revert record
  decide

/-- The record that was deleted first is back. -/
theorem retargetedSink_not_suppressed : ¬ retargetedSink.db.Suppressed "codegraph:v1:a" := by
  have computed : (retargetedSink.activeDeletedIds sampleAletheia).toOption.any
      (fun deleted => !deleted.contains "codegraph:v1:a") = true := by decide
  obtain ⟨deleted, found, members⟩ := activeDeletedIds_spec retargetedLog_run.coherent
  rw [found] at computed
  rw [← members, ← Std.ExtTreeSet.contains_iff_mem]
  simpa only [Except.toOption, Option.any_some, Bool.not_eq_true', Bool.not_eq_true] using computed

/-- The history read of that log shows the retracted node without its tombstone. -/
theorem retargetedLog_not_faithful :
    ∃ slice, retargetedSink.readAllRecordsIncludingSuperseded sampleAletheia = .ok slice ∧
      ¬ KeepsHistory retargetedLog retargetedLog slice := by
  obtain ⟨active, retracted, edges, mem_edges, read⟩ := readAllRecordsIncludingSuperseded_eq
    retargetedLog_run.coherent retargetedLog_run.reachable.known retargetedSink_ordinary
  refine ⟨_, read, fun keeps => retargetedSink_not_suppressed ?_⟩
  have ends : EndsInTombstone retargetedLog "codegraph:v1:a" := rfl
  refine suppressed_of_deletes retracted (fun record member => ?_) ((keeps.tombstone _).mpr ends)
  obtain ⟨edgeId, edge, -, -, -, rfl⟩ := (mem_edges record).mp member
  exact ⟨edge.record, rfl⟩

end EmbeddedAletheiaSink

end Egregore
