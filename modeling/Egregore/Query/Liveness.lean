import Egregore.Base.OrderedMap
import Egregore.Base.Recency
import Egregore.Ir

/-!
# Latest-write-wins liveness

The gate of `query/liveness.rs`: one pass over an append-ordered record slice
keeps the greatest index of a write and of a tombstone of each id. The maps are
connected to `Base.lastIdx`, and `deleted` to `Base.unanswered`.
-/

namespace Egregore

open Base

/-- The precomputed view; see `Liveness.new`. -/
structure Liveness where
  lastWrite : StrMap Nat := ∅
  lastEdgeWrite : StrMap Nat := ∅
  lastNodeWrite : StrMap Nat := ∅
  lastTomb : StrMap Nat := ∅
  hasTemporal : StrSet := ∅

namespace Liveness

/-- One record of the append-order pass. -/
def record (liveness : Liveness) : GraphRecord × Nat → Liveness
  | (.node node, index) =>
      { liveness with
        lastWrite := liveness.lastWrite.insert node.id index
        lastNodeWrite := liveness.lastNodeWrite.insert node.id index
        hasTemporal :=
          if node.temporal.isSome then liveness.hasTemporal.insert node.id
          else liveness.hasTemporal }
  | (.edge edge, index) =>
      { liveness with
        lastWrite := liveness.lastWrite.insert edge.id index
        lastEdgeWrite := liveness.lastEdgeWrite.insert edge.id index
        hasTemporal :=
          if edge.temporal.isSome then liveness.hasTemporal.insert edge.id
          else liveness.hasTemporal }
  | (.tombstone tombstone, index) =>
      { liveness with lastTomb := liveness.lastTomb.insert tombstone.deletedId index }

/-- `Liveness::new`. -/
def new (records : List GraphRecord) : Liveness :=
  records.zipIdx.foldl record {}

/-- A tombstone of `id` follows its every write. -/
def tombstoneActive (liveness : Liveness) (id : String) : Bool :=
  match liveness.lastTomb[id]? with
  | none => false
  | some tomb =>
      match liveness.lastWrite[id]? with
      | none => true
      | some write => write < tomb

/-- `id`'s most recent write is a tombstone, and no version of it is temporal. -/
def deleted (liveness : Liveness) (id : String) : Bool :=
  !liveness.hasTemporal.contains id && liveness.tombstoneActive id

/-- `active_tombstoned_ids`: every id whose tombstone is still active. -/
def activeTombstonedIds (liveness : Liveness) : List String :=
  liveness.lastTomb.keys.filter liveness.tombstoneActive

/-- The record at `index` is the last edge write of `edgeId`. -/
def isLatestEdgeVersion (liveness : Liveness) (edgeId : String) (index : Nat) : Bool :=
  liveness.lastEdgeWrite[edgeId]? = some index

/-- The record at `index` is the last node write of `nodeId`. -/
def isLatestNodeVersion (liveness : Liveness) (nodeId : String) (index : Nat) : Bool :=
  liveness.lastNodeWrite[nodeId]? = some index

@[simp] theorem new_nil : new [] = {} := rfl

theorem new_append_singleton (records : List GraphRecord) (last : GraphRecord) :
    new (records ++ [last]) = (new records).record (last, records.length) := by
  simp [new, List.zipIdx_append]

/-- What the pass has recorded, in terms of positions in the slice. -/
structure Describes (liveness : Liveness) (records : List GraphRecord) : Prop where
  lastWrite : ∀ id, liveness.lastWrite[id]? = lastIdx (GraphRecord.writes id) records
  lastEdgeWrite : ∀ id, liveness.lastEdgeWrite[id]? = lastIdx (GraphRecord.writesEdge id) records
  lastNodeWrite : ∀ id, liveness.lastNodeWrite[id]? = lastIdx (GraphRecord.writesNode id) records
  lastTomb : ∀ id, liveness.lastTomb[id]? = lastIdx (GraphRecord.deletes id) records
  hasTemporal : ∀ id, liveness.hasTemporal.contains id =
    records.any fun record => record.writes id && record.temporal.isSome

private theorem contains_insert_if (ids : StrSet) (condition : Bool) (id other : String) :
    (if condition then ids.insert id else ids).contains other =
      (ids.contains other || (decide (id = other) && condition)) := by
  have same : (byteOrder id other == .eq) = decide (id = other) := by
    rw [Bool.eq_iff_iff]
    simp
  cases condition <;> simp [Std.ExtTreeSet.contains_insert, same, Bool.or_comm]

/-- `Liveness::new` describes the slice it was built from. -/
theorem new_describes (records : List GraphRecord) : (new records).Describes records := by
  induction records using List.reverseRecOn with
  | nil => constructor <;> intro id <;> simp
  | append_singleton records last ih =>
      rw [new_append_singleton]
      cases last with
      | node node =>
          constructor <;> intro id
          all_goals simp only [record, lastIdx_append_singleton, getElem?_insert_eq,
            contains_insert_if, List.any_append, ih.lastWrite, ih.lastEdgeWrite,
            ih.lastNodeWrite, ih.lastTomb, ih.hasTemporal, GraphRecord.writes,
            GraphRecord.writesNode, GraphRecord.writesEdge, GraphRecord.deletes]
          all_goals simp [GraphRecord.temporal]
      | edge edge =>
          constructor <;> intro id
          all_goals simp only [record, lastIdx_append_singleton, getElem?_insert_eq,
            contains_insert_if, List.any_append, ih.lastWrite, ih.lastEdgeWrite,
            ih.lastNodeWrite, ih.lastTomb, ih.hasTemporal, GraphRecord.writes,
            GraphRecord.writesNode, GraphRecord.writesEdge, GraphRecord.deletes]
          all_goals simp [GraphRecord.temporal]
      | tombstone tombstone =>
          constructor <;> intro id
          all_goals simp only [record, lastIdx_append_singleton, getElem?_insert_eq,
            List.any_append, ih.lastWrite, ih.lastEdgeWrite,
            ih.lastNodeWrite, ih.lastTomb, ih.hasTemporal, GraphRecord.writes,
            GraphRecord.writesNode, GraphRecord.writesEdge, GraphRecord.deletes]
          all_goals simp [GraphRecord.temporal]

/-- Some version of `id` carries bitemporal history. -/
def temporalId (records : List GraphRecord) (id : String) : Bool :=
  records.any fun record => record.writes id && record.temporal.isSome

/-- The tombstone gate asks for a deletion followed by no write. -/
theorem tombstoneActive_new (records : List GraphRecord) (id : String) :
    (new records).tombstoneActive id =
      unanswered (GraphRecord.deletes id) (GraphRecord.writes id) records := by
  have described := new_describes records
  rw [Bool.eq_iff_iff, ←
    lastIdx_lt_iff_unanswered (p := (GraphRecord.deletes id)) (q := (GraphRecord.writes id))]
  · simp only [tombstoneActive, described.lastTomb, described.lastWrite]
    cases lastIdx (GraphRecord.deletes id) records with
    | none => simp
    | some tomb =>
        cases lastIdx (GraphRecord.writes id) records with
        | none => simp
        | some write => simp
  · intro record deletes
    cases record <;> simp_all [GraphRecord.deletes, GraphRecord.writes]

theorem deleted_new (records : List GraphRecord) (id : String) :
    (new records).deleted id =
      (!temporalId records id &&
        unanswered (GraphRecord.deletes id) (GraphRecord.writes id) records) := by
  rw [deleted, tombstoneActive_new, (new_describes records).hasTemporal, temporalId]

/-- Records of other IDs leave the liveness of an ID as it is. -/
theorem deleted_append_of_others {records more : List GraphRecord} {id : String}
    (others : ∀ record ∈ more, record.writes id = false ∧ record.deletes id = false) :
    (new (records ++ more)).deleted id = (new records).deleted id := by
  have untemporal : (more.any fun record => record.writes id && record.temporal.isSome) = false := by
    rw [List.any_eq_false]
    intro record member
    simp [(others record member).1]
  have silent : unanswered (GraphRecord.deletes id) (GraphRecord.writes id) more = false := by
    rw [← Bool.not_eq_true]
    intro retracted
    obtain ⟨record, member, deletes⟩ := exists_of_unanswered retracted
    simp [(others record member).2] at deletes
  have unwritten : (more.all fun record => !record.writes id) = true := by
    rw [List.all_eq_true]
    intro record member
    simp [(others record member).1]
  rw [deleted_new, deleted_new, temporalId, temporalId, List.any_append, untemporal,
    unanswered_append, silent, unwritten]
  simp

theorem isLatestEdgeVersion_new (records : List GraphRecord) (id : String) (index : Nat) :
    (new records).isLatestEdgeVersion id index =
      decide (lastIdx (GraphRecord.writesEdge id) records = some index) := by
  rw [isLatestEdgeVersion, (new_describes records).lastEdgeWrite]

theorem isLatestNodeVersion_new (records : List GraphRecord) (id : String) (index : Nat) :
    (new records).isLatestNodeVersion id index =
      decide (lastIdx (GraphRecord.writesNode id) records = some index) := by
  rw [isLatestNodeVersion, (new_describes records).lastNodeWrite]

end Liveness

end Egregore
