import Egregore.Adapters.Retraction

/-!
# Reopening a store

`rebuild_lookup_indexes` meets the physical objects in AletheiaDB's order, and the
sink kept its indexes write by write. Both give a coherent sink over the same
database, and coherent sinks over one database answer alike.
`openStore_answersAlike` is for every reachable sink and every order of the
enumeration.
-/

namespace Egregore

open Base Database

/-- Coherence does not depend on how AletheiaDB enumerates. -/
theorem Coherent.congr {env other : Aletheia} {sink : EmbeddedAletheiaSink}
    (coherent : Coherent env sink)
    (sameReader : other.parseFromRfc3339 = env.parseFromRfc3339) : Coherent other sink :=
  { coherent with
    keyed := fun id record seq found => by
      rw [temporalReadKeyFromProperties_congr sameReader]
      exact coherent.keyed id record seq found
    lookup := by
      obtain ⟨ids, described, nodes⟩ := coherent.lookup
      exact ⟨ids, by rwa [indexedNodes_congr sameReader], nodes⟩ }

namespace EmbeddedAletheiaSink

/-- What the first pass has rebuilt from the nodes and edges met so far. -/
structure RebuiltFrom (env : Aletheia) (db : Database) (ids edges : List Nat)
    (sink : EmbeddedAletheiaSink) : Prop where
  db_eq : sink.db = db
  lookup : sink.nodeLookup.Describes (indexedNodes env db ids)
  tombstoneIds : ∀ id : String, sink.tombstoneIds[id]? =
    bestOf compare (ids.filter fun nodeId => db[nodeId]?.any (Stored.tombstoneOf id))
  edgeSeqs : ∀ id : String, sink.edgeSeqs[id]? =
    bestOf compare ((edges.filter fun edgeId => db[edgeId]?.any (Stored.edgeOf id)).filterMap db.seqAt)
  legacy : ∀ id : String, sink.legacyEdgeCounts[id]? = none
  nodeSeqs : ∀ nodeId ∈ ids, ∀ record seq, db.getNode nodeId = some (.node record (some seq)) →
    seq ≤ sink.writeSeq
  boundedEdges : ∀ edgeId ∈ edges, ∀ seq ∈ db.seqAt edgeId, seq ≤ sink.writeSeq
  noSeqs : sink.tombstoneNodeSeqs = ∅
  noHandles : sink.recordHandles = ∅

variable {env : Aletheia} {db : Database} {sink sink' : EmbeddedAletheiaSink} {ids edges : List Nat}

theorem rebuiltFrom_nil (env : Aletheia) (db : Database) : RebuiltFrom env db [] [] { db := db } where
  db_eq := rfl
  lookup := NodeLookupIndex.describes_empty
  tombstoneIds := by simp
  edgeSeqs := by simp
  legacy := by simp
  nodeSeqs := by simp
  boundedEdges := by simp
  noSeqs := rfl
  noHandles := rfl

/-- `index_stored_node` meets one more node. -/
theorem RebuiltFrom.indexStoredNode (rebuilt : RebuiltFrom env db ids edges sink) {nodeId : Nat}
    {stored : StoredNode} (at_node : db.getNode nodeId = some stored)
    (keyed : ∀ record seq, stored = .node record seq →
      ∃ key, temporalReadKeyFromProperties env record.id record.temporal = .ok key)
    (errorRecordId : String) :
    ∃ sink', sink.indexStoredNode env nodeId errorRecordId = .ok sink' ∧
      RebuiltFrom env db (ids ++ [nodeId]) edges sink' := by
  obtain rfl := rebuilt.db_eq
  have object := getNode_eq_some_iff.mp at_node
  have entered : indexedNodes env sink.db (ids ++ [nodeId]) =
      indexedNodes env sink.db ids ++ (indexedNode env nodeId stored).toList := by
    simp only [indexedNodes, List.filterMap_append, List.filterMap_cons, at_node,
      Option.bind_some, List.filterMap_nil]
    cases indexedNode env nodeId stored <;> rfl
  cases stored with
  | node record seq =>
      obtain ⟨key, read⟩ := keyed record seq rfl
      refine ⟨_, by simp only [EmbeddedAletheiaSink.indexStoredNode, at_node, read]; rfl, ?_⟩
      simp only [indexedNode, read, Option.toList_some] at entered
      exact {
        db_eq := rfl
        lookup := entered ▸ rebuilt.lookup.insert record.id nodeId key
        tombstoneIds := fun id => by
          simp [List.filter_append, object, Stored.tombstoneOf, rebuilt.tombstoneIds]
        edgeSeqs := rebuilt.edgeSeqs
        legacy := rebuilt.legacy
        nodeSeqs := by
          intro other member otherRecord otherSeq at_other
          rcases List.mem_append.mp member with before | last
          · exact Nat.le_trans (rebuilt.nodeSeqs other before otherRecord otherSeq at_other)
              (Nat.le_max_left _ _)
          · rw [List.mem_singleton.mp last, at_node, Option.some.injEq, StoredNode.node.injEq]
              at at_other
            rw [at_other.2]
            exact Nat.le_max_right _ _
        boundedEdges := fun edgeId member seq at_seq =>
          Nat.le_trans (rebuilt.boundedEdges edgeId member seq at_seq) (Nat.le_max_left _ _)
        noSeqs := rebuilt.noSeqs
        noHandles := rebuilt.noHandles }
  | tombstone record seq =>
      refine ⟨_, by simp only [EmbeddedAletheiaSink.indexStoredNode, at_node]; rfl, ?_⟩
      simp only [indexedNode, Option.toList_none, List.append_nil] at entered
      exact {
        db_eq := rfl
        lookup := entered ▸ rebuilt.lookup
        tombstoneIds := fun id => by
          have kept := rebuilt.tombstoneIds id
          rw [List.filter_append, getElem?_insert_eq]
          by_cases same : record.id = id
          · subst same
            simp [object, Stored.tombstoneOf, bestOf_append_singleton, keepBest_compare, kept]
          · simp [object, Stored.tombstoneOf, same, kept]
        edgeSeqs := rebuilt.edgeSeqs
        legacy := rebuilt.legacy
        nodeSeqs := by
          intro other member otherRecord otherSeq at_other
          rcases List.mem_append.mp member with before | last
          · exact rebuilt.nodeSeqs other before otherRecord otherSeq at_other
          · rw [List.mem_singleton.mp last, at_node] at at_other
            simp at at_other
        boundedEdges := rebuilt.boundedEdges
        noSeqs := rebuilt.noSeqs
        noHandles := rebuilt.noHandles }

/-- The loop over outgoing edges meets one more edge. -/
theorem RebuiltFrom.rebuildEdgeSeq (rebuilt : RebuiltFrom env db ids edges sink) {edgeId : Nat}
    {edge : StoredEdge} {seq : Nat} (at_edge : db.getEdge edgeId = some edge)
    (stamp : edge.seq = some seq) :
    ∃ sink', sink.rebuildEdgeSeq env edgeId = .ok sink' ∧
      RebuiltFrom env db ids (edges ++ [edgeId]) sink' := by
  obtain rfl := rebuilt.db_eq
  have object := getEdge_eq_some_iff.mp at_edge
  have at_seq : sink.db.seqAt edgeId = some seq := by simp [seqAt, object, Stored.seq, stamp]
  refine ⟨_, by simp only [EmbeddedAletheiaSink.rebuildEdgeSeq, at_edge, stamp]; rfl, ?_⟩
  exact {
    db_eq := rfl
    lookup := rebuilt.lookup
    tombstoneIds := rebuilt.tombstoneIds
    edgeSeqs := fun id => by
      have kept := rebuilt.edgeSeqs id
      rw [List.filter_append, List.filterMap_append, getElem?_insert_eq]
      by_cases same : edge.record.id = id
      · subst same
        simp only [List.filter_cons, object, Option.any_some, Stored.edgeOf, decide_true, if_true,
          List.filter_nil, List.filterMap_cons, at_seq, List.filterMap_nil,
          bestOf_append_singleton, keepBest_compare, ← kept, Std.ExtTreeMap.getD_eq_getD_getElem?]
        cases sink.edgeSeqs[edge.record.id]? with
        | none => simp [greaterId]
        | some current =>
            simp only [Option.getD_some, Option.some.injEq, greaterId]
            split <;> omega
      · simp [object, Stored.edgeOf, same, kept]
    legacy := rebuilt.legacy
    nodeSeqs := fun nodeId member record other at_node =>
      Nat.le_trans (rebuilt.nodeSeqs nodeId member record other at_node) (Nat.le_max_left _ _)
    boundedEdges := by
      intro other member otherSeq at_other
      rcases List.mem_append.mp member with before | last
      · exact Nat.le_trans (rebuilt.boundedEdges other before otherSeq at_other) (Nat.le_max_left _ _)
      · rw [List.mem_singleton.mp last, at_seq] at at_other
        obtain rfl := Option.some.inj at_other
        exact Nat.le_max_right _ _
    noSeqs := rebuilt.noSeqs
    noHandles := rebuilt.noHandles }

/-- The loop over the outgoing edges of one node. -/
theorem RebuiltFrom.foldlM_rebuildEdgeSeq (rebuilt : RebuiltFrom env db ids edges sink)
    (next : List Nat)
    (stamped : ∀ edgeId ∈ next, ∃ edge seq, getEdge db edgeId = some edge ∧ edge.seq = some seq) :
    ∃ sink', next.foldlM (fun sink => EmbeddedAletheiaSink.rebuildEdgeSeq env sink) sink =
        .ok sink' ∧ RebuiltFrom env db ids (edges ++ next) sink' := by
  induction next generalizing sink edges with
  | nil => exact ⟨sink, rfl, by simpa using rebuilt⟩
  | cons edgeId rest ih =>
      obtain ⟨edge, seq, at_edge, stamp⟩ := stamped edgeId (by simp)
      obtain ⟨once, stepped, rebuilt⟩ := rebuilt.rebuildEdgeSeq at_edge stamp
      obtain ⟨final, folded, rebuilt⟩ := ih rebuilt fun other member =>
        stamped other (List.mem_cons_of_mem _ member)
      refine ⟨final, ?_, by simpa using rebuilt⟩
      rw [List.foldlM_cons, stepped]
      exact folded

/-- The first pass of `rebuild_lookup_indexes`, over any list of stored nodes. -/
theorem RebuiltFrom.foldlM_rebuildNode (rebuilt : RebuiltFrom env db ids edges sink)
    (next : List Nat) (stored : ∀ nodeId ∈ next, ∃ node, getNode db nodeId = some node ∧
      ∀ record seq, node = .node record seq →
        ∃ key, temporalReadKeyFromProperties env record.id record.temporal = .ok key)
    (stamped : ∀ edgeId edge, getEdge db edgeId = some edge → ∃ seq, edge.seq = some seq) :
    ∃ sink', next.foldlM (fun sink => rebuildNode env sink) sink = .ok sink' ∧
      RebuiltFrom env db (ids ++ next)
        (edges ++ next.flatMap (env.getOutgoingEdges db)) sink' := by
  induction next generalizing sink ids edges with
  | nil => exact ⟨sink, rfl, by simpa using rebuilt⟩
  | cons nodeId rest ih =>
      obtain ⟨node, at_node, keyed⟩ := stored nodeId (by simp)
      obtain ⟨indexed, stepped, rebuilt⟩ :=
        rebuilt.indexStoredNode at_node keyed "embedded-store"
      obtain ⟨scanned, scan, rebuilt'⟩ := rebuilt.foldlM_rebuildEdgeSeq
        (env.getOutgoingEdges db nodeId) fun edgeId member => by
          obtain ⟨edge, at_edge, -⟩ :=
            mem_outgoing.mp ((env.getOutgoingEdges_perm db nodeId).mem_iff.mp member)
          obtain ⟨seq, stamp⟩ := stamped edgeId edge at_edge
          exact ⟨edge, seq, at_edge, stamp⟩
      obtain ⟨final, folded, rebuilt'⟩ := ih rebuilt'
        fun other member => stored other (List.mem_cons_of_mem _ member)
      refine ⟨final, ?_, by simpa using rebuilt'⟩
      rw [List.foldlM_cons, rebuildNode, stepped]
      simp only [rebuilt.db_eq, scan]
      exact folded

/-- What the second pass adds. -/
structure Restamped (before : EmbeddedAletheiaSink) (nodeIds : List Nat)
    (sink : EmbeddedAletheiaSink) : Prop where
  db_eq : sink.db = before.db
  nodeLookup_eq : sink.nodeLookup = before.nodeLookup
  tombstoneIds_eq : sink.tombstoneIds = before.tombstoneIds
  edgeSeqs_eq : sink.edgeSeqs = before.edgeSeqs
  legacy_eq : sink.legacyEdgeCounts = before.legacyEdgeCounts
  handles_eq : sink.recordHandles = before.recordHandles
  seqs : ∀ nodeId ∈ nodeIds, sink.tombstoneNodeSeqs[nodeId]? = before.db.seqAt nodeId
  bounded : ∀ nodeId ∈ nodeIds, ∀ seq ∈ before.db.seqAt nodeId, seq ≤ sink.writeSeq
  writeSeq_le : before.writeSeq ≤ sink.writeSeq

/-- The second pass of `rebuild_lookup_indexes`, over any list of stored tombstones. -/
theorem Restamped.foldlM_rebuildTombstoneSeq {before : EmbeddedAletheiaSink} {nodeIds : List Nat}
    (restamped : Restamped before nodeIds sink) (next : List Nat)
    (stored : ∀ nodeId ∈ next, ∃ node seq, before.db.getNode nodeId = some node ∧
      node.seq = some seq) :
    ∃ sink', next.foldlM (fun sink => rebuildTombstoneSeq env sink) sink = .ok sink' ∧
      Restamped before (nodeIds ++ next) sink' := by
  induction next generalizing sink nodeIds with
  | nil => exact ⟨sink, rfl, by simpa using restamped⟩
  | cons nodeId rest ih =>
      obtain ⟨node, seq, at_node, stamp⟩ := stored nodeId (by simp)
      have at_seq : before.db.seqAt nodeId = some seq := by
        simp [seqAt, getNode_eq_some_iff.mp at_node, Stored.seq, stamp]
      have once : Restamped before (nodeIds ++ [nodeId])
          { sink with
            tombstoneNodeSeqs := sink.tombstoneNodeSeqs.insert nodeId seq
            writeSeq := max sink.writeSeq seq } := {
        restamped with
        seqs := by
          intro other member
          simp only [getElem?_insert_eq]
          by_cases same : nodeId = other
          · rw [if_pos same, ← same, at_seq]
          · rw [if_neg same]
            rcases List.mem_append.mp member with earlier | last
            · exact restamped.seqs other earlier
            · exact absurd (List.mem_singleton.mp last).symm same
        bounded := by
          intro other member otherSeq at_other
          rcases List.mem_append.mp member with earlier | last
          · exact Nat.le_trans (restamped.bounded other earlier otherSeq at_other)
              (Nat.le_max_left _ _)
          · rw [List.mem_singleton.mp last, at_seq] at at_other
            obtain rfl := Option.some.inj at_other
            exact Nat.le_max_right _ _
        writeSeq_le := Nat.le_trans restamped.writeSeq_le (Nat.le_max_left _ _) }
      obtain ⟨final, folded, restamped'⟩ := ih once
        fun other member => stored other (List.mem_cons_of_mem _ member)
      refine ⟨final, ?_, by simpa using restamped'⟩
      have stepped : sink.rebuildTombstoneSeq env nodeId = .ok
          { sink with
            tombstoneNodeSeqs := sink.tombstoneNodeSeqs.insert nodeId seq
            writeSeq := max sink.writeSeq seq } := by
        simp only [rebuildTombstoneSeq, restamped.db_eq, at_node, stamp]
      rw [List.foldlM_cons, stepped]
      exact folded

/-- The greatest position satisfying a predicate is the last one. -/
theorem bestOf_eq_lastIdx {p : Stored → Bool} {positions : List Nat}
    (covers : ∀ position, position ∈ positions ↔
      ∃ stored, db[position]? = some stored ∧ p stored = true) :
    bestOf compare positions = lastIdx p db := by
  ext last
  rw [bestOf_compare_eq_some_iff, lastIdx_eq_some_iff_greatest, covers]
  apply and_congr_right
  intro _
  constructor
  · exact fun upper position stored at_position holds =>
      upper position ((covers position).mpr ⟨stored, at_position, holds⟩)
  · intro greatest position member
    obtain ⟨stored, at_position, holds⟩ := (covers position).mp member
    exact greatest position stored at_position holds

/-- The greatest sequence number of the objects satisfying a predicate is the last one's. -/
theorem bestOf_seqs_eq {p : Stored → Bool} {positions : List Nat} (stamped : Stamped db)
    (covers : ∀ position, position ∈ positions ↔
      ∃ stored, db[position]? = some stored ∧ p stored = true) :
    bestOf compare (positions.filterMap (seqAt db)) = (lastIdx p db).bind (seqAt db) := by
  ext best
  rw [bestOf_compare_eq_some_iff, Option.bind_eq_some_iff]
  constructor
  · rintro ⟨member, upper⟩
    obtain ⟨position, inside, at_position⟩ := List.mem_filterMap.mp member
    refine ⟨position, ?_, at_position⟩
    rw [lastIdx_eq_some_iff_greatest]
    refine ⟨(covers position).mp inside, fun later stored at_later holds => ?_⟩
    obtain ⟨seq, stamp⟩ := stamped.exists_seqAt (List.getElem?_eq_some_iff.mp at_later).1
    have below := upper seq
      (List.mem_filterMap.mpr ⟨later, (covers later).mpr ⟨stored, at_later, holds⟩, stamp⟩)
    have order := stamped.seqAt_lt_iff at_position stamp
    omega
  · rintro ⟨last, found, at_last⟩
    rw [lastIdx_eq_some_iff_greatest] at found
    refine ⟨List.mem_filterMap.mpr ⟨last, (covers last).mpr found.1, at_last⟩, ?_⟩
    intro seq member
    obtain ⟨position, inside, stamp⟩ := List.mem_filterMap.mp member
    obtain ⟨stored, at_position, holds⟩ := (covers position).mp inside
    have below := found.2 position stored at_position holds
    have order := stamped.seqAt_lt_iff at_last stamp
    omega

/-- The scan over the nodes meets every edge, as every edge leaves a stored node. -/
theorem mem_scan (env : Aletheia)
    (ends : ∀ id edge, getEdge db id = some edge → (getNode db edge.source).isSome) (id : Nat) :
    id ∈ (env.getAllNodeIds db).flatMap (env.getOutgoingEdges db) ↔
      ∃ edge, getEdge db id = some edge := by
  rw [List.mem_flatMap]
  constructor
  · rintro ⟨nodeId, -, member⟩
    obtain ⟨edge, found, -⟩ :=
      mem_outgoing.mp ((env.getOutgoingEdges_perm db nodeId).mem_iff.mp member)
    exact ⟨edge, found⟩
  · rintro ⟨edge, found⟩
    refine ⟨edge.source, ?_, ?_⟩
    · exact (env.getAllNodeIds_perm db).mem_iff.mpr (mem_nodeIds.mpr (ends id edge found))
    · exact (env.getOutgoingEdges_perm db edge.source).mem_iff.mpr
        (mem_outgoing.mpr ⟨edge, found, rfl⟩)

theorem RebuiltFrom.tombstoneIds_eq (rebuilt : RebuiltFrom env db ids edges sink)
    (nodes : ids.Perm db.nodeIds) (id : String) :
    sink.tombstoneIds[id]? = lastIdx (Stored.tombstoneOf id) db := by
  rw [rebuilt.tombstoneIds]
  apply bestOf_eq_lastIdx
  intro nodeId
  rw [List.mem_filter, nodes.mem_iff, mem_nodeIds, Option.any_eq_true]
  constructor
  · exact fun ⟨_, found⟩ => found
  · rintro ⟨stored, at_node, named⟩
    refine ⟨?_, stored, at_node, named⟩
    match stored, at_node, named with
    | .node node, at_node, _ => simp [getNode_eq_some_iff.mpr at_node]
    | .edge edge, _, named => simp [Stored.tombstoneOf] at named

theorem RebuiltFrom.edgeSeqs_eq (rebuilt : RebuiltFrom env db ids edges sink)
    (scanned : ∀ id, id ∈ edges ↔ ∃ edge, getEdge db id = some edge) (stamped : Stamped db)
    (id : String) :
    sink.edgeSeqs[id]? = (lastIdx (Stored.edgeOf id) db).bind (seqAt db) := by
  rw [rebuilt.edgeSeqs]
  apply bestOf_seqs_eq stamped
  intro edgeId
  rw [List.mem_filter, scanned, Option.any_eq_true]
  constructor
  · exact fun ⟨_, found⟩ => found
  · rintro ⟨stored, at_edge, named⟩
    refine ⟨?_, stored, at_edge, named⟩
    match stored, at_edge, named with
    | .edge edge, at_edge, _ => exact ⟨edge, getEdge_eq_some_iff.mpr at_edge⟩
    | .node node, _, named => simp [Stored.edgeOf] at named

/-- The node ids the tombstone index holds. -/
theorem mem_tombstoneNodeIds {nodeId : Nat} :
    nodeId ∈ sink.tombstoneIds.toList.map Prod.snd ↔
      ∃ id : String, sink.tombstoneIds[id]? = some nodeId := by
  rw [List.mem_map]
  constructor
  · rintro ⟨⟨id, _⟩, inside, rfl⟩
    exact ⟨id, Std.ExtTreeMap.mem_toList_iff_getElem?_eq_some.mp inside⟩
  · rintro ⟨id, found⟩
    exact ⟨(id, nodeId), Std.ExtTreeMap.mem_toList_iff_getElem?_eq_some.mpr found, rfl⟩

/-- Both passes together make the indexes agree with the database. -/
theorem coherent_of_restamped {first : EmbeddedAletheiaSink}
    (rebuilt : RebuiltFrom env db ids edges first) (nodes : ids.Perm db.nodeIds)
    (scanned : ∀ id, id ∈ edges ↔ ∃ edge, getEdge db id = some edge)
    (restamped : Restamped first (first.tombstoneIds.toList.map Prod.snd) sink)
    (stamped : Stamped db)
    (keyed : ∀ id record seq, getNode db id = some (.node record seq) →
      ∃ key, temporalReadKeyFromProperties env record.id record.temporal = .ok key)
    (ends : ∀ id edge, getEdge db id = some edge →
      (getNode db edge.source).isSome ∧ (getNode db edge.target).isSome) :
    Coherent env sink := by
  have db_eq : sink.db = db := restamped.db_eq.trans rebuilt.db_eq
  have tombstones : ∀ id : String,
      sink.tombstoneIds[id]? = lastIdx (Stored.tombstoneOf id) sink.db := fun id => by
    rw [restamped.tombstoneIds_eq, db_eq, rebuilt.tombstoneIds_eq nodes]
  have listed : ∀ {id : String} {nodeId}, sink.tombstoneIds[id]? = some nodeId →
      nodeId ∈ first.tombstoneIds.toList.map Prod.snd := fun found =>
    mem_tombstoneNodeIds.mpr ⟨_, restamped.tombstoneIds_eq ▸ found⟩
  exact {
    keyed := by rwa [db_eq]
    lookup := ⟨ids, by rw [restamped.nodeLookup_eq, db_eq]; exact rebuilt.lookup, by rwa [db_eq]⟩
    tombstoneIds := tombstones
    tombstoneSeqs := fun id nodeId found => by
      rw [restamped.seqs nodeId (listed found), restamped.db_eq]
    edgeSeqs := fun id => by
      rw [restamped.edgeSeqs_eq, db_eq, rebuilt.edgeSeqs_eq scanned stamped]
    legacy := fun id => by rw [restamped.legacy_eq, rebuilt.legacy]
    stamped := by rwa [db_eq]
    bounded := by
      intro stored member seq at_seq
      obtain ⟨position, at_position⟩ := List.mem_iff_getElem?.mp member
      rw [db_eq] at at_position
      have stamp : seqAt db position = some seq := by
        rw [seqAt, at_position, Option.bind_some]
        exact at_seq
      rcases stored with (⟨record, _⟩ | ⟨record, _⟩) | edge
      · have inside := nodes.mem_iff.mpr (mem_nodeIds.mpr
          (by rw [getNode_eq_some_iff.mpr at_position]; rfl))
        refine Nat.le_trans (rebuilt.nodeSeqs position inside record seq ?_)
          restamped.writeSeq_le
        rw [getNode_eq_some_iff, at_position]
        exact congrArg (fun seq => some (Stored.node (.node record seq))) at_seq
      · -- Only the last tombstone of an ID is met, and its number is the greatest.
        cases last : lastIdx (Stored.tombstoneOf record.id) db with
        | none =>
            have := lastIdx_eq_none_iff.mp last _ (List.mem_of_getElem? at_position)
            simp [Stored.tombstoneOf] at this
        | some nodeId =>
            obtain ⟨⟨stored, at_node, -⟩, greatest⟩ := lastIdx_eq_some_iff_greatest.mp last
            have before := greatest position _ at_position (by simp [Stored.tombstoneOf])
            obtain ⟨lastSeq, lastStamp⟩ :=
              stamped.exists_seqAt (List.getElem?_eq_some_iff.mp at_node).1
            have order := stamped.seqAt_lt_iff lastStamp stamp
            have found : sink.tombstoneIds[record.id]? = some nodeId := by
              rw [tombstones, db_eq, last]
            have bounded := restamped.bounded nodeId (listed found) lastSeq
              (by rw [rebuilt.db_eq, lastStamp]; rfl)
            omega
      · have inside := (scanned position).mpr ⟨edge, getEdge_eq_some_iff.mpr at_position⟩
        exact Nat.le_trans (rebuilt.boundedEdges position inside seq stamp)
          restamped.writeSeq_le
    ends := by rwa [db_eq] }

/-- Opening the store of a coherent sink succeeds and gives a coherent sink. -/
theorem openStore_coherent (coherent : Coherent env sink) (other : Aletheia)
    (sameReader : other.parseFromRfc3339 = env.parseFromRfc3339) :
    ∃ reopened, openStore other sink.db = .ok reopened ∧ Coherent other reopened ∧
      reopened.db = sink.db := by
  have keyed : ∀ id record seq, getNode sink.db id = some (.node record seq) →
      ∃ key, temporalReadKeyFromProperties other record.id record.temporal = .ok key := by
    intro id record seq found
    rw [temporalReadKeyFromProperties_congr sameReader]
    exact coherent.keyed id record seq found
  have nodes := other.getAllNodeIds_perm sink.db
  obtain ⟨first, firstPass, rebuilt⟩ := (rebuiltFrom_nil other sink.db).foldlM_rebuildNode
    (other.getAllNodeIds sink.db)
    (fun nodeId member => by
      obtain ⟨node, found⟩ := Option.isSome_iff_exists.mp
        (mem_nodeIds.mp (nodes.mem_iff.mp member))
      exact ⟨node, found, fun record seq same => keyed nodeId record seq (same ▸ found)⟩)
    fun id edge found => Option.isSome_iff_exists.mp (coherent.stamped.all (.edge edge)
      (List.mem_of_getElem? (getEdge_eq_some_iff.mp found)))
  simp only [List.nil_append] at rebuilt
  have unstamped : Restamped first [] first := by constructor <;> simp
  obtain ⟨reopened, secondPass, restamped⟩ := unstamped.foldlM_rebuildTombstoneSeq
    (first.tombstoneIds.toList.map Prod.snd) fun nodeId member => by
      obtain ⟨id, found⟩ := mem_tombstoneNodeIds.mp member
      rw [rebuilt.tombstoneIds_eq nodes] at found
      obtain ⟨stored, at_node, named, -⟩ := lastIdx_eq_some_iff.mp found
      match stored, at_node, named with
      | .edge edge, _, named => simp [Stored.tombstoneOf] at named
      | .node node, at_node, _ =>
          obtain ⟨seq, stamp⟩ := Option.isSome_iff_exists.mp
            (coherent.stamped.all (.node node) (List.mem_of_getElem? at_node))
          exact ⟨node, seq, by rw [rebuilt.db_eq, getNode_eq_some_iff, at_node], stamp⟩
  simp only [List.nil_append] at restamped
  refine ⟨reopened, ?_, ?_, restamped.db_eq.trans rebuilt.db_eq⟩
  · unfold openStore rebuildLookupIndexes
    simp only [firstPass]
    exact secondPass
  · exact coherent_of_restamped rebuilt nodes
      (mem_scan other fun id edge found => (coherent.ends id edge found).1) restamped
      coherent.stamped keyed coherent.ends

section Agree

variable {other : Aletheia} {reopened : EmbeddedAletheiaSink}

/-- Coherent sinks over one database hold equivalent lookup indexes. -/
theorem lookup_agree (coherent : Coherent env sink) (coherent' : Coherent other reopened)
    (sameReader : other.parseFromRfc3339 = env.parseFromRfc3339)
    (sameDb : reopened.db = sink.db) : sink.nodeLookup.Agree reopened.nodeLookup := by
  obtain ⟨ids, described, nodes⟩ := coherent.lookup
  obtain ⟨ids', described', nodes'⟩ := coherent'.lookup
  rw [sameDb, indexedNodes_congr sameReader] at described'
  rw [sameDb] at nodes'
  exact described.agree_of_perm described' (indexedNodes_perm (nodes.trans nodes'.symm))

/-- Coherent sinks over one database suppress the same IDs. -/
theorem activeDeletedIds_agree (coherent : Coherent env sink)
    (coherent' : Coherent other reopened) (sameDb : reopened.db = sink.db) :
    ∃ deleted, sink.activeDeletedIds env = .ok deleted ∧
      reopened.activeDeletedIds other = .ok deleted := by
  obtain ⟨deleted, found, members⟩ := activeDeletedIds_spec coherent
  obtain ⟨deleted', found', members'⟩ := activeDeletedIds_spec coherent'
  have same : deleted' = deleted := by
    apply Std.ExtTreeSet.ext_mem
    intro id
    rw [members', members, sameDb]
  exact ⟨deleted, found, same ▸ found'⟩

end Agree

/-- The sinks a process can hold: a fresh store, then accepted writes and reopenings in any
order, AletheiaDB enumerating as it likes. -/
inductive Reachable (parse : String → Except String Int) : EmbeddedAletheiaSink → Prop where
  | fresh : Reachable parse {}
  | write {env : Aletheia} {sink sink' : EmbeddedAletheiaSink} {record : GraphRecord}
      {outcome : WriteOutcome} (before : Reachable parse sink)
      (reader : env.parseFromRfc3339 = parse)
      (accepted : sink.writeRecord env record = (sink', .ok outcome)) : Reachable parse sink'
  | reopen {env : Aletheia} {sink sink' : EmbeddedAletheiaSink} (before : Reachable parse sink)
      (reader : env.parseFromRfc3339 = parse) (opened : openStore env sink.db = .ok sink') :
      Reachable parse sink'

theorem coherent_fresh (env : Aletheia) : Coherent env {} where
  keyed := by simp [getNode]
  lookup := ⟨[], NodeLookupIndex.describes_empty, by simp [nodeIds]⟩
  tombstoneIds := by simp
  tombstoneSeqs := by simp
  edgeSeqs := by simp
  legacy := by simp
  stamped := ⟨by simp, List.Pairwise.nil⟩
  bounded := by simp
  ends := by simp [getEdge]

/-- Every sink a process can hold is coherent. -/
theorem Reachable.coherent {parse : String → Except String Int}
    (reachable : Reachable parse sink) : ∀ env : Aletheia, env.parseFromRfc3339 = parse →
      Coherent env sink := by
  induction reachable with
  | fresh => exact fun env _ => coherent_fresh env
  | write _ reader accepted ih =>
      intro other sameReader
      have kept := (accepts_of_writeRecord accepted).coherent (ih _ reader)
      exact kept.congr (sameReader.trans reader.symm)
  | reopen _ reader opened ih =>
      intro other sameReader
      obtain ⟨reopened, opened', coherent, -⟩ := openStore_coherent (ih _ reader) _ rfl
      rw [opened, Except.ok.injEq] at opened'
      exact (opened' ▸ coherent).congr (sameReader.trans reader.symm)

/-- The answers of two sinks over one store are the same, and the second one's write sequence
is past every number a live index entry or a stored object holds. -/
structure AnswersAlike (env : Aletheia) (sink reopened : EmbeddedAletheiaSink) : Prop where
  nodeLookup : sink.nodeLookup.Agree reopened.nodeLookup
  tombstoneIds : ∀ id : String, sink.tombstoneIds[id]? = reopened.tombstoneIds[id]?
  activeDeletedIds : ∃ deleted, sink.activeDeletedIds env = .ok deleted ∧
    reopened.activeDeletedIds env = .ok deleted
  edgeSeqs : ∀ id : String, sink.edgeSeqs[id]? = reopened.edgeSeqs[id]?
  edgeSeqs_le : ∀ (id : String) seq, reopened.edgeSeqs[id]? = some seq → seq ≤ reopened.writeSeq
  tombstoneSeqs_le : ∀ (id : String) nodeId seq, reopened.tombstoneIds[id]? = some nodeId →
    reopened.tombstoneNodeSeqs[nodeId]? = some seq → seq ≤ reopened.writeSeq
  seq_le : ∀ stored ∈ sink.db, ∀ seq ∈ stored.seq, seq ≤ reopened.writeSeq

/-- Reopening the store of any sink a process can hold changes no answer. -/
theorem openStore_answersAlike {parse : String → Except String Int}
    (reachable : Reachable parse sink) (env : Aletheia) (reader : env.parseFromRfc3339 = parse) :
    ∃ reopened, openStore env sink.db = .ok reopened ∧ reopened.db = sink.db ∧
      AnswersAlike env sink reopened := by
  have coherent := reachable.coherent env reader
  obtain ⟨reopened, opened, coherent', sameDb⟩ := openStore_coherent coherent env rfl
  have stampBound : ∀ {id seq}, reopened.db.seqAt id = some seq → seq ≤ reopened.writeSeq := by
    intro id seq stamp
    obtain ⟨stored, at_id, at_seq⟩ := Option.bind_eq_some_iff.mp stamp
    exact coherent'.bounded stored (List.mem_of_getElem? at_id) seq at_seq
  refine ⟨reopened, opened, sameDb, {
    nodeLookup := lookup_agree coherent coherent' rfl sameDb
    tombstoneIds := fun id => ?_
    activeDeletedIds := activeDeletedIds_agree coherent coherent' sameDb
    edgeSeqs := fun id => ?_
    edgeSeqs_le := fun id seq held => ?_
    tombstoneSeqs_le := fun id nodeId seq indexed held => ?_
    seq_le := sameDb ▸ coherent'.bounded }⟩
  · rw [coherent.tombstoneIds, coherent'.tombstoneIds, sameDb]
  · rw [coherent.edgeSeqs, coherent'.edgeSeqs, sameDb]
  · rw [coherent'.edgeSeqs] at held
    obtain ⟨edgeId, -, stamp⟩ := Option.bind_eq_some_iff.mp held
    exact stampBound stamp
  · rw [coherent'.tombstoneSeqs id nodeId indexed] at held
    exact stampBound held

/-- Write records one after another, as long as each is accepted. -/
def writeAll (env : Aletheia) : EmbeddedAletheiaSink → List GraphRecord →
    Option EmbeddedAletheiaSink
  | sink, [] => some sink
  | sink, record :: rest =>
      match sink.writeRecord env record with
      | (sink, .ok _) => writeAll env sink rest
      | (_, .error _) => none

theorem Reachable.writeAll {parse : String → Except String Int} (reader : env.parseFromRfc3339 = parse)
    {records : List GraphRecord} (reachable : Reachable parse sink)
    (wrote : sink.writeAll env records = some sink') : Reachable parse sink' := by
  induction records generalizing sink with
  | nil =>
      obtain rfl := Option.some.inj wrote
      exact reachable
  | cons record rest ih =>
      rw [EmbeddedAletheiaSink.writeAll] at wrote
      match written : sink.writeRecord env record, wrote with
      | (next, .ok outcome), wrote => exact ih (reachable.write reader written) wrote
      | (next, .error fault), wrote => simp at wrote

/-- Timestamps of the samples, as seconds of the epoch. -/
def sampleTimes (text : String) : Except String Int :=
  if text = "2024-01-01T00:00:00Z" then .ok 1704067200
  else if text = "2024-01-02T00:00:00Z" then .ok 1704153600
  else .error "input contains invalid characters"

/-- A library that refuses nothing and enumerates in creation order. -/
def sampleAletheia : Aletheia where
  parseFromRfc3339 := sampleTimes
  refuses _ _ := none
  getAllNodeIds := nodeIds
  getAllNodeIds_perm _ := List.Perm.refl _
  getOutgoingEdges := outgoing
  getOutgoingEdges_perm _ _ := List.Perm.refl _
  absent := "node not found"

/-- A library that enumerates the newest objects first. -/
def reversedAletheia : Aletheia :=
  { sampleAletheia with
    getAllNodeIds := fun db => db.nodeIds.reverse
    getAllNodeIds_perm := fun db => List.reverse_perm db.nodeIds
    getOutgoingEdges := fun db node => (db.outgoing node).reverse
    getOutgoingEdges_perm := fun db node => List.reverse_perm (db.outgoing node) }

/-- A snapshot, two plain versions, an edge between them, its tombstone and its revival. -/
def sampleWrites : List GraphRecord :=
  let snapshot : TemporalMetadata :=
    { gitCommit := "c1", validTime := "2024-01-01T00:00:00Z", observedAt := "2024-01-02T00:00:00Z" }
  [.node { id := "codegraph:a", kind := .symbol, schemaVersion := 1, temporal := some snapshot },
    .node { id := "codegraph:a", kind := .symbol, schemaVersion := 1 },
    .node { id := "codegraph:b", kind := .symbol, schemaVersion := 1, summary := "old" },
    .node { id := "codegraph:b", kind := .symbol, schemaVersion := 1, summary := "new" },
    .edge { id := "codegraph:e", schemaVersion := 1, label := .calls,
            source := "codegraph:a", target := "codegraph:b" },
    .tombstone { id := "codegraph:t", schemaVersion := 1, deletedId := "codegraph:e" },
    .tombstone { id := "codegraph:u", schemaVersion := 1, deletedId := "codegraph:b" },
    .edge { id := "codegraph:e", schemaVersion := 1, label := .calls,
            source := "codegraph:a", target := "codegraph:b" }]

def sampleSink : EmbeddedAletheiaSink := (writeAll sampleAletheia {} sampleWrites).getD {}

theorem sampleSink_reachable : Reachable sampleTimes sampleSink := by
  have accepted : (writeAll sampleAletheia {} sampleWrites).isSome = true := by decide
  obtain ⟨sink, wrote⟩ := Option.isSome_iff_exists.mp accepted
  have same : sampleSink = sink := by rw [sampleSink, wrote, Option.getD_some]
  rw [same]
  exact (Reachable.fresh).writeAll rfl wrote

theorem sampleSink_answersAlike :
    ∃ reopened, openStore reversedAletheia sampleSink.db = .ok reopened ∧
      reopened.db = sampleSink.db ∧ AnswersAlike reversedAletheia sampleSink reopened :=
  openStore_answersAlike sampleSink_reachable reversedAletheia rfl

end EmbeddedAletheiaSink

end Egregore
