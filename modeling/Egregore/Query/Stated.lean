import Egregore.Query.Current
import Egregore.TemporalStatus

/-!
# What a slice states

The collapsed slice of a history with snapshots: of each ID that no tombstone ends, the last node
write, the last edge write and every snapshot of the node. The links that the resolver collects
are those of this slice.
-/

namespace Egregore

open Base

/-- The record at this position is kept. -/
def Liveness.states (liveness : Liveness) : GraphRecord × Nat → Bool
  | (.tombstone _, _) => false
  | entry => liveness.asserts entry

/-- The collapsed slice, with the snapshots. -/
def statedRecords (records : List GraphRecord) : List GraphRecord :=
  (records.zipIdx.filter (Liveness.new records).states).map Prod.fst

variable {records : List GraphRecord} {id : String}

theorem node_mem_stated {node : NodeRecord} :
    .node node ∈ statedRecords records ↔
      (Liveness.new records).deleted node.id = false ∧ .node node ∈ records ∧
        (node.temporal.isSome = true ∨
          lastEvent (GraphRecord.writesNode node.id) records = some (.node node)) := by
  simp only [statedRecords, List.mem_map, List.mem_filter, Prod.exists, exists_and_right,
    exists_eq_right, List.mk_mem_zipIdx_iff_getElem?, Liveness.states, Liveness.asserts,
    Liveness.isLatestNodeVersion_new]
  constructor
  · rintro ⟨index, found, asserts⟩
    simp only [Bool.not_or, Bool.not_and, Bool.not_not, Bool.and_eq_true, Bool.not_eq_true',
      Bool.or_eq_true, decide_eq_true_eq, Option.not_isNone] at asserts
    refine ⟨asserts.1, List.mem_of_getElem? found, asserts.2.imp_right fun latest => ?_⟩
    exact lastEvent_eq_some_iff.mpr ⟨index, latest, found⟩
  · rintro ⟨live, member, snapshot | latest⟩
    · obtain ⟨index, found⟩ := List.mem_iff_getElem?.mp member
      exact ⟨index, found, by simp [live, Option.isNone_eq_false_iff.mpr snapshot]⟩
    · obtain ⟨index, isLast, found⟩ := lastEvent_eq_some_iff.mp latest
      exact ⟨index, found, by simp [live, isLast]⟩

theorem edge_mem_stated {edge : EdgeRecord} :
    .edge edge ∈ statedRecords records ↔
      (Liveness.new records).deleted edge.id = false ∧
        lastEvent (GraphRecord.writesEdge edge.id) records = some (.edge edge) := by
  simp only [statedRecords, List.mem_map, List.mem_filter, Prod.exists, exists_and_right,
    exists_eq_right, List.mk_mem_zipIdx_iff_getElem?, Liveness.states, Liveness.asserts,
    Liveness.isLatestEdgeVersion_new]
  constructor
  · rintro ⟨index, found, asserts⟩
    simp only [Bool.not_or, Bool.not_not, Bool.and_eq_true, Bool.not_eq_true',
      decide_eq_true_eq] at asserts
    exact ⟨asserts.1, lastEvent_eq_some_iff.mpr ⟨index, asserts.2, found⟩⟩
  · rintro ⟨live, latest⟩
    obtain ⟨index, isLast, found⟩ := lastEvent_eq_some_iff.mp latest
    exact ⟨index, found, by simp [live, isLast]⟩

theorem tombstone_not_mem_stated {tombstone : TombstoneRecord} :
    .tombstone tombstone ∉ statedRecords records := by
  simp [statedRecords, Liveness.states]

/-- Nothing is deleted in the collapsed slice. -/
theorem deleted_stated : (Liveness.new (statedRecords records)).deleted id = false := by
  have silent : unanswered (GraphRecord.deletes id) (GraphRecord.writes id)
      (statedRecords records) = false := by
    by_contra retracted
    obtain ⟨record, member, deletes⟩ :=
      exists_of_unanswered (Bool.not_eq_false _ ▸ retracted)
    cases record with
    | node node => simp [GraphRecord.deletes] at deletes
    | edge edge => simp [GraphRecord.deletes] at deletes
    | tombstone tombstone => exact tombstone_not_mem_stated member
  rw [Liveness.deleted_new, silent, Bool.and_false]

theorem exists_node_of_writes {record : GraphRecord}
    (writes : GraphRecord.writesNode id record = true) :
    ∃ node, record = .node node ∧ node.id = id := by
  cases record with
  | node node => exact ⟨node, rfl, of_decide_eq_true writes⟩
  | edge edge => cases writes
  | tombstone tombstone => cases writes

theorem exists_edge_of_writes {record : GraphRecord}
    (writes : GraphRecord.writesEdge id record = true) :
    ∃ edge, record = .edge edge ∧ edge.id = id := by
  cases record with
  | edge edge => exact ⟨edge, rfl, of_decide_eq_true writes⟩
  | node node => cases writes
  | tombstone tombstone => cases writes

/-- The collapsed slice keeps the last versions of the live IDs. -/
private theorem lastEvent_stated {p : GraphRecord → Bool}
    (dead : ∀ record ∈ statedRecords records, p record = true →
      (Liveness.new records).deleted id = false)
    (kept : (Liveness.new records).deleted id = false → ∀ record index, p record = true →
      lastIdx p records = some index → (Liveness.new records).states (record, index) = true) :
    lastEvent p (statedRecords records) =
      if (Liveness.new records).deleted id then none else lastEvent p records := by
  cases deleted : (Liveness.new records).deleted id with
  | true =>
      rw [if_pos rfl, lastEvent, List.getLast?_eq_none_iff, List.filter_eq_nil_iff]
      intro record member writes
      rw [dead record member writes] at deleted
      cases deleted
  | false =>
      rw [if_neg (by decide), statedRecords]
      refine lastEvent_filter_zipIdx _ _ fun record index isLast found => ?_
      obtain ⟨_, found', writes, -⟩ := lastIdx_eq_some_iff.mp isLast
      rw [found, Option.some.injEq] at found'
      exact kept deleted record index (found' ▸ writes) isLast

theorem lastEvent_writesNode_stated :
    lastEvent (GraphRecord.writesNode id) (statedRecords records) =
      if (Liveness.new records).deleted id then none
      else lastEvent (GraphRecord.writesNode id) records := by
  refine lastEvent_stated (fun record member writes => ?_) fun live record index writes isLast => ?_
  · obtain ⟨node, rfl, rfl⟩ := exists_node_of_writes writes
    exact (node_mem_stated.mp member).1
  · obtain ⟨node, rfl, rfl⟩ := exists_node_of_writes writes
    simp [Liveness.states, Liveness.asserts, Liveness.isLatestNodeVersion_new, live, isLast]

theorem lastEvent_writesEdge_stated :
    lastEvent (GraphRecord.writesEdge id) (statedRecords records) =
      if (Liveness.new records).deleted id then none
      else lastEvent (GraphRecord.writesEdge id) records := by
  refine lastEvent_stated (fun record member writes => ?_) fun live record index writes isLast => ?_
  · obtain ⟨edge, rfl, rfl⟩ := exists_edge_of_writes writes
    exact (edge_mem_stated.mp member).1
  · obtain ⟨edge, rfl, rfl⟩ := exists_edge_of_writes writes
    simp [Liveness.states, Liveness.asserts, Liveness.isLatestEdgeVersion_new, live, isLast]

/-- The collapsed slice states itself. -/
theorem mem_stated_stated {record : GraphRecord} :
    record ∈ statedRecords (statedRecords records) ↔ record ∈ statedRecords records := by
  cases record with
  | node node =>
      rw [node_mem_stated, deleted_stated, lastEvent_writesNode_stated]
      constructor
      · exact fun stated => stated.2.1
      · intro stated
        obtain ⟨live, -, kept⟩ := node_mem_stated.mp stated
        refine ⟨rfl, stated, kept.imp_right fun latest => ?_⟩
        rw [live, if_neg (by decide), latest]
  | edge edge =>
      rw [edge_mem_stated, deleted_stated, lastEvent_writesEdge_stated, edge_mem_stated]
      cases live : (Liveness.new records).deleted edge.id <;> simp
  | tombstone tombstone => simp [tombstone_not_mem_stated]

/-- The links that a slice asserts are those that it states. -/
theorem mem_assertedLinks_stated {linksOf : GraphRecord → List (String × String)}
    (silent : ∀ tombstone, linksOf (.tombstone tombstone) = []) {link : String × String} :
    link ∈ (assertingRecords records).flatMap linksOf ↔
      ∃ record ∈ statedRecords records, link ∈ linksOf record := by
  simp only [List.mem_flatMap, assertingRecords, statedRecords, List.mem_map, List.mem_filter]
  constructor
  · rintro ⟨_, ⟨⟨record, index⟩, ⟨inside, asserts⟩, rfl⟩, linked⟩
    refine ⟨_, ⟨⟨_, index⟩, ⟨inside, ?_⟩, rfl⟩, linked⟩
    cases record with
    | tombstone tombstone => simp [silent] at linked
    | node node => exact asserts
    | edge edge => exact asserts
  · rintro ⟨_, ⟨⟨record, index⟩, ⟨inside, states⟩, rfl⟩, linked⟩
    refine ⟨_, ⟨⟨_, index⟩, ⟨inside, ?_⟩, rfl⟩, linked⟩
    cases record with
    | tombstone tombstone => cases states
    | node node => exact states
    | edge edge => exact states

theorem supersededBy_stated :
    (TemporalResolver.build (statedRecords records)).supersededBy =
      (TemporalResolver.build records).supersededBy := by
  apply foldl_insertLink_congr
  intro link
  rw [mem_assertedLinks_stated fun _ => rfl, mem_assertedLinks_stated fun _ => rfl]
  simp only [mem_stated_stated]

theorem contradicts_stated :
    (TemporalResolver.build (statedRecords records)).contradicts =
      (TemporalResolver.build records).contradicts := by
  apply foldl_insertLink_congr
  intro link
  rw [mem_assertedLinks_stated fun _ => rfl, mem_assertedLinks_stated fun _ => rfl]
  simp only [mem_stated_stated]

/-- Without snapshots, what a slice states is its current state. -/
theorem statedRecords_eq_current (history : ∀ node, .node node ∈ records → node.temporal = none) :
    statedRecords records = currentRecords records := by
  rw [statedRecords, currentRecords]
  congr 1
  apply List.filter_congr
  rintro ⟨record, index⟩ member
  cases record with
  | node node =>
      have plain := history node (List.fst_mem_of_mem_zipIdx member)
      simp [Liveness.states, Liveness.asserts, Liveness.isCurrent, plain, Bool.and_comm]
  | edge edge => simp [Liveness.states, Liveness.asserts, Liveness.isCurrent, Bool.and_comm]
  | tombstone tombstone => rfl

end Egregore
