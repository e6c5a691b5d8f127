import Egregore.Adapters.Coherent

/-!
# Active tombstones

Which tombstones of a coherent sink suppress their target: the last one stored under
its own record ID, while no later plain node or edge of the target exists.
`activeDeletedIds_spec` says that the sink's own computation of them goes through
and finds these.
-/

namespace Egregore

open Base

namespace Database

/-- Something written after position `nodeId` brings `deletedId` back. -/
def Superseded (db : Database) (nodeId : Nat) (deletedId : String) : Prop :=
  ∃ later stored, nodeId < later ∧ db[later]? = some stored ∧ stored.revives deletedId = true

/-- An active tombstone of `deletedId` is stored. -/
def Suppressed (db : Database) (deletedId : String) : Prop :=
  ∃ nodeId record seq, db.getNode nodeId = some (.tombstone record seq) ∧
    record.deletedId = deletedId ∧
    lastIdx (Stored.tombstoneOf record.id) db = some nodeId ∧ ¬ db.Superseded nodeId deletedId

end Database

open Database

namespace EmbeddedAletheiaSink

variable {env : Aletheia} {sink : EmbeddedAletheiaSink}

/-- The candidates the lookup index holds of an ID are its stored graph nodes. -/
theorem mem_candidatesOf {ids : List Nat} (same : ids.Perm sink.db.nodeIds) {id : String}
    {candidate : ReadBackCandidate} :
    candidate ∈ candidatesOf id (indexedNodes env sink.db ids) ↔
      ∃ record seq, sink.db.getNode candidate.storageId = some (.node record seq) ∧
        record.id = id ∧
        temporalReadKeyFromProperties env record.id record.temporal = .ok candidate.temporalKey := by
  constructor
  · intro member
    simp only [candidatesOf, List.mem_map, List.mem_filter, decide_eq_true_eq] at member
    obtain ⟨entry, ⟨member, rfl⟩, rfl⟩ := member
    obtain ⟨-, record, seq, at_id, named, read⟩ := nodeId_of_mem_indexedNodes member
    exact ⟨record, seq, at_id, named, read⟩
  · rintro ⟨record, seq, at_id, rfl, read⟩
    have inside : candidate.storageId ∈ ids :=
      same.mem_iff.mpr (mem_nodeIds.mpr (by simp [at_id]))
    have entered : (⟨record.id, candidate.storageId, candidate.temporalKey⟩ : IndexedNode) ∈
        indexedNodes env sink.db ids := by
      refine List.mem_filterMap.mpr ⟨candidate.storageId, inside, ?_⟩
      simp [at_id, indexedNode, read]
    simp only [candidatesOf, List.mem_map, List.mem_filter, decide_eq_true_eq]
    exact ⟨_, ⟨entered, rfl⟩, rfl⟩

theorem plainNodeOf_iff {db : Database} {nodeId : Nat} {id : String} :
    (∃ stored, db[nodeId]? = some stored ∧ stored.plainNodeOf id = true) ↔
      ∃ record seq, db.getNode nodeId = some (.node record seq) ∧ record.id = id ∧
        record.temporal = none := by
  constructor
  · rintro ⟨stored, at_id, plain⟩
    match stored, at_id, plain with
    | .node (.node record seq), at_id, plain =>
        simp only [Stored.plainNodeOf, Bool.and_eq_true, decide_eq_true_eq,
          Option.isNone_iff_eq_none] at plain
        exact ⟨record, seq, getNode_eq_some_iff.mpr at_id, plain⟩
    | .node (.tombstone record seq), _, plain => simp [Stored.plainNodeOf] at plain
    | .edge stored, _, plain => simp [Stored.plainNodeOf] at plain
  · rintro ⟨record, seq, at_id, named, plain⟩
    exact ⟨_, getNode_eq_some_iff.mp at_id, by simp [Stored.plainNodeOf, named, plain]⟩

/-- The non-temporal node kept for an ID is the last one stored. -/
theorem nonTemporal_eq (coherent : Coherent env sink) (id : String) :
    sink.nodeLookup.nonTemporal[id]? = lastIdx (Stored.plainNodeOf id) sink.db := by
  obtain ⟨ids, described, same⟩ := coherent.lookup
  -- A plain candidate is a stored plain node, and the other way round.
  have candidate : ∀ nodeId, ⟨nodeId, none⟩ ∈
      (candidatesOf id (indexedNodes env sink.db ids)).filter isNonTemporal ↔
        ∃ stored, sink.db[nodeId]? = some stored ∧ stored.plainNodeOf id = true := by
    intro nodeId
    rw [List.mem_filter, mem_candidatesOf same, plainNodeOf_iff]
    constructor
    · rintro ⟨⟨record, seq, at_id, named, read⟩, -⟩
      exact ⟨record, seq, at_id, named, (temporalKey_none_iff read).mp rfl⟩
    · rintro ⟨record, seq, at_id, named, plain⟩
      refine ⟨⟨record, seq, at_id, named, ?_⟩, rfl⟩
      rw [plain]
      rfl
  have plainKey : ∀ found ∈ (candidatesOf id (indexedNodes env sink.db ids)).filter isNonTemporal,
      found = ⟨found.storageId, none⟩ := by
    intro found member
    have plain := (List.mem_filter.mp member).2
    simp only [isNonTemporal, decide_eq_true_eq] at plain
    rw [← plain]
  have order : ∀ first second, candidateOrder ⟨first, none⟩ ⟨second, none⟩ = .lt ↔
      first < second := by
    simp [candidateOrder_eq_lt, optionalKeyOrder]
  ext nodeId
  rw [described.nonTemporal, lastIdx_eq_some_iff_greatest, Option.map_eq_some_iff,
    ← candidate nodeId]
  constructor
  · rintro ⟨best, found, rfl⟩
    have isBest := isBest_of_bestOf found
    have shape := plainKey best isBest.mem
    refine ⟨shape ▸ isBest.mem, fun position stored at_position plain => ?_⟩
    have upper := isBest.upper _ ((candidate position).mpr ⟨stored, at_position, plain⟩)
    rw [shape, Ne, order] at upper
    exact Nat.le_of_not_lt upper
  · rintro ⟨member, greatest⟩
    refine ⟨⟨nodeId, none⟩, bestOf_eq_some_iff.mpr ⟨member, fun other inside => ?_⟩, rfl⟩
    have shape := plainKey other inside
    obtain ⟨stored, at_position, plain⟩ := (candidate other.storageId).mp (shape ▸ inside)
    rw [shape, Ne, order]
    exact Nat.not_lt.mpr (greatest _ stored at_position plain)

/-- A position after `nodeId` holds an object satisfying `p`. -/
theorem exists_later_iff {p : Stored → Bool} {db : Database} {nodeId : Nat} :
    (∃ later stored, nodeId < later ∧ db[later]? = some stored ∧ p stored = true) ↔
      ∃ last, lastIdx p db = some last ∧ nodeId < last := by
  constructor
  · rintro ⟨later, stored, after, at_later, holds⟩
    cases found : lastIdx p db with
    | none =>
        have := lastIdx_eq_none_iff.mp found stored (List.mem_of_getElem? at_later)
        rw [holds] at this
        contradiction
    | some last =>
        have := (lastIdx_eq_some_iff_greatest.mp found).2 later stored at_later holds
        exact ⟨last, rfl, by omega⟩
  · rintro ⟨last, found, after⟩
    obtain ⟨⟨stored, at_last, holds⟩, -⟩ := lastIdx_eq_some_iff_greatest.mp found
    exact ⟨last, stored, after, at_last, holds⟩

theorem superseded_iff {db : Database} {nodeId : Nat} {deletedId : String} :
    db.Superseded nodeId deletedId ↔
      (∃ last, lastIdx (Stored.plainNodeOf deletedId) db = some last ∧ nodeId < last) ∨
        ∃ last, lastIdx (Stored.edgeOf deletedId) db = some last ∧ nodeId < last := by
  rw [← exists_later_iff, ← exists_later_iff, Superseded]
  simp only [Stored.revives, Bool.or_eq_true]
  constructor
  · rintro ⟨later, stored, after, at_later, plain | edge⟩
    · exact Or.inl ⟨later, stored, after, at_later, plain⟩
    · exact Or.inr ⟨later, stored, after, at_later, edge⟩
  · rintro (⟨later, stored, after, at_later, plain⟩ | ⟨later, stored, after, at_later, edge⟩)
    · exact ⟨later, stored, after, at_later, Or.inl plain⟩
    · exact ⟨later, stored, after, at_later, Or.inr edge⟩

/-- An indexed tombstone is stale once a later write supersedes it. -/
theorem tombstoneNodeIsStale_iff (coherent : Coherent env sink) {id : String} {nodeId : Nat}
    (indexed : sink.tombstoneIds[id]? = some nodeId) (deletedId : String) :
    sink.tombstoneNodeIsStale nodeId deletedId = true ↔ sink.db.Superseded nodeId deletedId := by
  have stored := indexed
  rw [coherent.tombstoneIds] at stored
  obtain ⟨_, at_id, -⟩ := lastIdx_eq_some_iff.mp stored
  obtain ⟨seq, stamp⟩ := coherent.stamped.exists_seqAt (List.getElem?_eq_some_iff.mp at_id).1
  have tombstoneSeq : sink.tombstoneNodeSeqs[nodeId]? = some seq := by
    rw [coherent.tombstoneSeqs id nodeId indexed, stamp]
  rw [superseded_iff, tombstoneNodeIsStale, nonTemporal_eq coherent, tombstoneSeq]
  simp only [Bool.or_eq_true]
  apply or_congr
  · simp [Option.any_eq_true]
  · rw [coherent.edgeSeqs]
    cases found : lastIdx (Stored.edgeOf deletedId) sink.db with
    | none => simp
    | some last =>
        obtain ⟨_, at_last, -⟩ := lastIdx_eq_some_iff.mp found
        obtain ⟨edgeSeq, edgeStamp⟩ :=
          coherent.stamped.exists_seqAt (List.getElem?_eq_some_iff.mp at_last).1
        simp [edgeStamp, coherent.stamped.seqAt_lt_iff stamp edgeStamp]

/-- The tombstone index holds physical tombstones under their record IDs. -/
theorem tombstone_of_indexed (coherent : Coherent env sink) {id : String} {nodeId : Nat}
    (indexed : sink.tombstoneIds[id]? = some nodeId) :
    ∃ record seq, sink.db.getNode nodeId = some (.tombstone record seq) ∧ record.id = id := by
  rw [coherent.tombstoneIds] at indexed
  obtain ⟨stored, at_id, named, -⟩ := lastIdx_eq_some_iff.mp indexed
  match stored, at_id, named with
  | .node (.tombstone record seq), at_id, named =>
      exact ⟨record, seq, getNode_eq_some_iff.mpr at_id, by simpa [Stored.tombstoneOf] using named⟩
  | .node (.node record seq), _, named => simp [Stored.tombstoneOf] at named
  | .edge stored, _, named => simp [Stored.tombstoneOf] at named

/-- The loop of `active_deleted_ids` never fails on stored tombstones. -/
theorem foldlM_addActiveDeletedId (env : Aletheia) (nodeIds : List Nat)
    (stored : ∀ nodeId ∈ nodeIds, ∃ record seq,
      sink.db.getNode nodeId = some (.tombstone record seq)) (init : StrSet) :
    ∃ deleted, nodeIds.foldlM (sink.addActiveDeletedId env) init = .ok deleted ∧
      ∀ id, id ∈ deleted ↔ id ∈ init ∨ ∃ nodeId ∈ nodeIds, ∃ record seq,
        sink.db.getNode nodeId = some (.tombstone record seq) ∧ record.deletedId = id ∧
          sink.tombstoneNodeIsStale nodeId id = false := by
  induction nodeIds generalizing init with
  | nil => exact ⟨init, rfl, by simp⟩
  | cons first rest ih =>
      obtain ⟨record, seq, at_first⟩ := stored first (by simp)
      obtain ⟨deleted, folded, members⟩ := ih
        (fun nodeId member => stored nodeId (List.mem_cons_of_mem _ member))
        (if sink.tombstoneNodeIsStale first record.deletedId then init
          else init.insert record.deletedId)
      refine ⟨deleted, ?_, fun id => ?_⟩
      · rw [List.foldlM_cons, addActiveDeletedId, at_first]
        exact folded
      · have added : id ∈ (if sink.tombstoneNodeIsStale first record.deletedId then init
            else init.insert record.deletedId) ↔
              id ∈ init ∨ record.deletedId = id ∧ sink.tombstoneNodeIsStale first id = false := by
          by_cases stale : sink.tombstoneNodeIsStale first record.deletedId = true
          · rw [if_pos stale]
            constructor
            · exact Or.inl
            · rintro (inside | ⟨rfl, fresh⟩)
              · exact inside
              · rw [stale] at fresh
                contradiction
          · rw [if_neg stale, Std.ExtTreeSet.mem_insert, byteOrder_eq_iff]
            constructor
            · rintro (rfl | inside)
              · exact Or.inr ⟨rfl, by simpa using stale⟩
              · exact Or.inl inside
            · rintro (inside | ⟨rfl, -⟩)
              · exact Or.inr inside
              · exact Or.inl rfl
        rw [members, added, or_assoc]
        apply or_congr_right
        constructor
        · rintro (⟨named, fresh⟩ | ⟨nodeId, member, found⟩)
          · exact ⟨first, by simp, record, seq, at_first, named, fresh⟩
          · exact ⟨nodeId, List.mem_cons_of_mem _ member, found⟩
        · rintro ⟨nodeId, member, other, otherSeq, at_node, named, fresh⟩
          rcases List.mem_cons.mp member with rfl | later
          · rw [at_first, Option.some.injEq, StoredNode.tombstone.injEq] at at_node
            obtain ⟨rfl, rfl⟩ := at_node
            exact Or.inl ⟨named, fresh⟩
          · exact Or.inr ⟨nodeId, later, other, otherSeq, at_node, named, fresh⟩

/-- `active_deleted_ids` succeeds and holds the suppressed IDs. -/
theorem activeDeletedIds_spec (coherent : Coherent env sink) :
    ∃ deleted, sink.activeDeletedIds env = .ok deleted ∧
      ∀ id, id ∈ deleted ↔ sink.db.Suppressed id := by
  have indexed : ∀ nodeId ∈ sink.tombstoneIds.toList.map Prod.snd,
      ∃ id : String, sink.tombstoneIds[id]? = some nodeId := by
    intro nodeId member
    obtain ⟨⟨id, _⟩, inside, rfl⟩ := List.mem_map.mp member
    exact ⟨id, Std.ExtTreeMap.mem_toList_iff_getElem?_eq_some.mp inside⟩
  obtain ⟨deleted, folded, members⟩ := foldlM_addActiveDeletedId env
    (sink.tombstoneIds.toList.map Prod.snd)
    (fun nodeId member => by
      obtain ⟨id, found⟩ := indexed nodeId member
      obtain ⟨record, seq, at_node, -⟩ := tombstone_of_indexed coherent found
      exact ⟨record, seq, at_node⟩) ∅
  refine ⟨deleted, folded, fun id => ?_⟩
  rw [members]
  simp only [Std.ExtTreeSet.not_mem_empty, false_or]
  constructor
  · rintro ⟨nodeId, member, record, seq, at_node, named, fresh⟩
    obtain ⟨recordId, found⟩ := indexed nodeId member
    obtain ⟨other, otherSeq, at_other, rfl⟩ := tombstone_of_indexed coherent found
    rw [at_node, Option.some.injEq, StoredNode.tombstone.injEq] at at_other
    obtain ⟨rfl, rfl⟩ := at_other
    refine ⟨nodeId, record, seq, at_node, named, ?_, ?_⟩
    · rw [← coherent.tombstoneIds, found]
    · rw [← tombstoneNodeIsStale_iff coherent found, fresh]
      simp
  · rintro ⟨nodeId, record, seq, at_node, named, last, fresh⟩
    rw [← coherent.tombstoneIds] at last
    refine ⟨nodeId, ?_, record, seq, at_node, named, ?_⟩
    · exact List.mem_map.mpr
        ⟨(record.id, nodeId), Std.ExtTreeMap.mem_toList_iff_getElem?_eq_some.mpr last, rfl⟩
    · rw [← tombstoneNodeIsStale_iff coherent last] at fresh
      simpa using fresh

end EmbeddedAletheiaSink

end Egregore
