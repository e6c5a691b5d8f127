import Egregore.Query.Deps

/-!
# The current state of a slice

What an append-ordered slice says now: of each id that no tombstone ends, the last
node write and the last edge write. Reading the current state again changes nothing,
so that a lane over a history may be compared with itself over the current records.
-/

namespace Egregore

open Base

/-- The record at this position is the last of its kind and id, and the id is live. -/
def Liveness.isCurrent (liveness : Liveness) : GraphRecord × Nat → Bool
  | (.node node, index) =>
      liveness.isLatestNodeVersion node.id index && !liveness.deleted node.id
  | (.edge edge, index) =>
      liveness.isLatestEdgeVersion edge.id index && !liveness.deleted edge.id
  | (.tombstone _, _) => false

/-- The collapsed slice. -/
def currentRecords (records : List GraphRecord) : List GraphRecord :=
  (records.zipIdx.filter (Liveness.new records).isCurrent).map Prod.fst

/-- The id is that of a record that is not deleted. -/
def Known (records : List GraphRecord) (id : String) : Prop :=
  (∃ record ∈ records, record.id = id) ∧ (Liveness.new records).deleted id = false

/-- The id is that of a node or edge that is not deleted. -/
def Written (records : List GraphRecord) (id : String) : Prop :=
  (∃ record ∈ records, record.writes id = true) ∧ (Liveness.new records).deleted id = false

variable {records : List GraphRecord} {id : String}

/-- Of one ID the last record is current, unless it was deleted. -/
private theorem filter_current {p : GraphRecord → Bool}
    (kind : ∀ record, p record = true → ∀ index,
      (Liveness.new records).isCurrent (record, index) =
        (decide (lastIdx p records = some index) && !(Liveness.new records).deleted id)) :
    (currentRecords records).filter p =
      if (Liveness.new records).deleted id then [] else (lastEvent p records).toList := by
  rw [currentRecords, List.filter_map, List.filter_filter, ← filter_zipIdx_lastIdx]
  have same : (records.zipIdx.filter fun entry =>
      (p ∘ Prod.fst) entry && (Liveness.new records).isCurrent entry) =
      records.zipIdx.filter fun entry => !(Liveness.new records).deleted id &&
        (p entry.1 && decide (lastIdx p records = some entry.2)) := by
    apply List.filter_congr
    rintro ⟨record, index⟩ -
    cases holds : p record with
    | false => simp [holds]
    | true => simp [holds, kind record holds index, Bool.and_comm]
  rw [same]
  cases (Liveness.new records).deleted id <;> simp

/-- So of the nodes of an ID the last one is. -/
theorem filter_writesNode_current :
    (currentRecords records).filter (GraphRecord.writesNode id) =
      if (Liveness.new records).deleted id then []
      else (lastEvent (GraphRecord.writesNode id) records).toList := by
  apply filter_current
  intro record writes index
  cases record with
  | node node =>
      obtain rfl : node.id = id := by simpa [GraphRecord.writesNode] using writes
      rw [Liveness.isCurrent, Liveness.isLatestNodeVersion_new]
  | edge edge => simp [GraphRecord.writesNode] at writes
  | tombstone tombstone => simp [GraphRecord.writesNode] at writes

/-- So of the edges of an ID the last one is. -/
theorem filter_writesEdge_current :
    (currentRecords records).filter (GraphRecord.writesEdge id) =
      if (Liveness.new records).deleted id then []
      else (lastEvent (GraphRecord.writesEdge id) records).toList := by
  apply filter_current
  intro record writes index
  cases record with
  | edge edge =>
      obtain rfl : edge.id = id := by simpa [GraphRecord.writesEdge] using writes
      rw [Liveness.isCurrent, Liveness.isLatestEdgeVersion_new]
  | node node => simp [GraphRecord.writesEdge] at writes
  | tombstone tombstone => simp [GraphRecord.writesEdge] at writes

/-- The collapsed slice keeps the last versions of the live ids. -/
theorem lastEvent_writesNode_current :
    lastEvent (GraphRecord.writesNode id) (currentRecords records) =
      if (Liveness.new records).deleted id then none
      else lastEvent (GraphRecord.writesNode id) records := by
  rw [lastEvent, filter_writesNode_current]
  split
  · rfl
  · cases lastEvent (GraphRecord.writesNode id) records <;> rfl

/-- The last edge stays the last one among current records. -/
theorem lastEvent_writesEdge_current :
    lastEvent (GraphRecord.writesEdge id) (currentRecords records) =
      if (Liveness.new records).deleted id then none
      else lastEvent (GraphRecord.writesEdge id) records := by
  rw [lastEvent, filter_writesEdge_current]
  split
  · rfl
  · cases lastEvent (GraphRecord.writesEdge id) records <;> rfl

/-- A current node is live and the last of its ID. -/
theorem node_mem_current {node : NodeRecord} :
    .node node ∈ currentRecords records ↔
      (Liveness.new records).deleted node.id = false ∧
        lastEvent (GraphRecord.writesNode node.id) records = some (.node node) := by
  have inFilter : .node node ∈ currentRecords records ↔
      .node node ∈ (currentRecords records).filter (GraphRecord.writesNode node.id) := by
    simp [GraphRecord.writesNode]
  rw [inFilter, filter_writesNode_current]
  cases (Liveness.new records).deleted node.id <;> simp

/-- So is a current edge. -/
theorem edge_mem_current {edge : EdgeRecord} :
    .edge edge ∈ currentRecords records ↔
      (Liveness.new records).deleted edge.id = false ∧
        lastEvent (GraphRecord.writesEdge edge.id) records = some (.edge edge) := by
  have inFilter : .edge edge ∈ currentRecords records ↔
      .edge edge ∈ (currentRecords records).filter (GraphRecord.writesEdge edge.id) := by
    simp [GraphRecord.writesEdge]
  rw [inFilter, filter_writesEdge_current]
  cases (Liveness.new records).deleted edge.id <;> simp

/-- No tombstone is current. -/
theorem tombstone_not_mem_current {tombstone : TombstoneRecord} :
    .tombstone tombstone ∉ currentRecords records := by
  simp [currentRecords, Liveness.isCurrent]

/-- Current records are records. -/
theorem mem_of_mem_current {record : GraphRecord} (member : record ∈ currentRecords records) :
    record ∈ records := by
  cases record with
  | node node => exact (mem_of_lastEvent (node_mem_current.mp member).2).1
  | edge edge => exact (mem_of_lastEvent (edge_mem_current.mp member).2).1
  | tombstone tombstone => exact absurd member tombstone_not_mem_current

/-- Nothing is deleted in the collapsed slice. -/
theorem deleted_current : (Liveness.new (currentRecords records)).deleted id = false := by
  have silent : unanswered (GraphRecord.deletes id) (GraphRecord.writes id)
      (currentRecords records) = false := by
    by_contra retracted
    obtain ⟨record, member, deletes⟩ :=
      exists_of_unanswered (Bool.not_eq_false _ ▸ retracted)
    cases record with
    | node node => simp [GraphRecord.deletes] at deletes
    | edge edge => simp [GraphRecord.deletes] at deletes
    | tombstone tombstone => exact tombstone_not_mem_current member
  rw [Liveness.deleted_new, silent, Bool.and_false]

/-- Where there is a record of a kind, there is a last one. -/
private theorem exists_lastEvent {p : GraphRecord → Bool} {record : GraphRecord}
    (member : record ∈ records) (holds : p record = true) :
    ∃ last, lastEvent p records = some last ∧ p last = true := by
  cases found : lastEvent p records with
  | none =>
      rw [lastEvent, List.getLast?_eq_none_iff, List.filter_eq_nil_iff] at found
      exact absurd holds (found record member)
  | some last => exact ⟨last, rfl, (mem_of_lastEvent found).2⟩

/-- The ids of the collapsed slice are those that are written and live. -/
theorem known_current : Known (currentRecords records) id ↔ Written records id := by
  rw [Known, Written, deleted_current]
  constructor
  · rintro ⟨⟨record, member, rfl⟩, -⟩
    cases record with
    | node node =>
        exact ⟨⟨_, mem_of_mem_current member, by simp [GraphRecord.writes]⟩,
          (node_mem_current.mp member).1⟩
    | edge edge =>
        exact ⟨⟨_, mem_of_mem_current member, by simp [GraphRecord.writes]⟩,
          (edge_mem_current.mp member).1⟩
    | tombstone tombstone => exact absurd member tombstone_not_mem_current
  · rintro ⟨⟨record, member, writes⟩, live⟩
    refine ⟨?_, rfl⟩
    rcases GraphRecord.writes_eq_true.mp writes with node | edge
    · obtain ⟨last, found, isNode⟩ := exists_lastEvent member node
      cases last with
      | node last =>
          obtain rfl : last.id = id := by simpa [GraphRecord.writesNode] using isNode
          exact ⟨_, node_mem_current.mpr ⟨live, found⟩, rfl⟩
      | edge last => simp [GraphRecord.writesNode] at isNode
      | tombstone last => simp [GraphRecord.writesNode] at isNode
    · obtain ⟨last, found, isEdge⟩ := exists_lastEvent member edge
      cases last with
      | edge last =>
          obtain rfl : last.id = id := by simpa [GraphRecord.writesEdge] using isEdge
          exact ⟨_, edge_mem_current.mpr ⟨live, found⟩, rfl⟩
      | node last => simp [GraphRecord.writesEdge] at isEdge
      | tombstone last => simp [GraphRecord.writesEdge] at isEdge

/-- What was written is known. -/
theorem Written.known (written : Written records id) : Known records id := by
  obtain ⟨⟨record, member, writes⟩, live⟩ := written
  exact ⟨⟨record, member, GraphRecord.id_of_writes writes⟩, live⟩

/-- The map has the known IDs. -/
theorem isSome_liveById :
    ((liveById (Liveness.new records) records)[id]?).isSome = true ↔ Known records id := by
  rw [getElem?_liveById, Known]
  cases live : (Liveness.new records).deleted id with
  | true => simp
  | false =>
      simp only [Bool.false_eq_true, if_false, and_true]
      constructor
      · intro some_
        obtain ⟨record, found⟩ := Option.isSome_iff_exists.mp some_
        obtain ⟨member, named⟩ := mem_of_lastEvent found
        exact ⟨record, member, of_decide_eq_true named⟩
      · rintro ⟨record, member, named⟩
        obtain ⟨last, found, -⟩ := exists_lastEvent (p := fun record => record.id = id) member
          (decide_eq_true named)
        rw [found]
        rfl

end Egregore
