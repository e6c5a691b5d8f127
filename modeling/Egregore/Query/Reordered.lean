import Egregore.Query.Current

/-!
# Slices in another order

The records of a slice may come in another order. As long as those of each ID keep theirs, what is
live and what each ID stands for stay the same. `Reordered` keeps the writes and the deletions of
each ID in their order; `ReorderedById` also keeps every record that bears the ID, for the lanes
that look records up by it.
-/

namespace Egregore

open Base

/-- A write or a deletion of the ID. -/
def GraphRecord.concerns (id : String) (record : GraphRecord) : Bool :=
  record.writes id || record.deletes id

/-- The same records, the writes and deletions of each ID in the same order. -/
structure Reordered (records others : List GraphRecord) : Prop where
  perm : others.Perm records
  same : ∀ id, others.filter (GraphRecord.concerns id) = records.filter (GraphRecord.concerns id)

/-- A record under the ID, or a deletion of it. A tombstone is a record under its own ID. -/
def GraphRecord.mentions (id : String) (record : GraphRecord) : Bool :=
  record.id = id || record.deletes id

/-- The same records, those of each ID in the same order. A map of the live records by ID holds
tombstones too, so that their own IDs matter to what is looked up there. -/
structure ReorderedById (records others : List GraphRecord) : Prop where
  perm : others.Perm records
  same : ∀ id, others.filter (GraphRecord.mentions id) = records.filter (GraphRecord.mentions id)

section Reordered

variable {records others : List GraphRecord}

private theorem concerns_of_writes {id : String} {record : GraphRecord}
    (written : record.writes id = true) : record.concerns id = true := by
  rw [GraphRecord.concerns, written, Bool.true_or]

private theorem concerns_of_deletes {id : String} {record : GraphRecord}
    (deletes : record.deletes id = true) : record.concerns id = true := by
  rw [GraphRecord.concerns, deletes, Bool.or_true]

private theorem mentions_of_concerns {id : String} {record : GraphRecord}
    (concerns : record.concerns id = true) : record.mentions id = true := by
  rcases Bool.or_eq_true_iff.mp concerns with written | deletes
  · rw [GraphRecord.mentions, GraphRecord.id_of_writes written, decide_eq_true rfl, Bool.true_or]
  · rw [GraphRecord.mentions, deletes, Bool.or_true]

/-- Where the records of each ID keep their order, so do its writes and deletions. -/
theorem ReorderedById.toReordered (reordered : ReorderedById records others) :
    Reordered records others where
  perm := reordered.perm
  same id := by
    have narrower : ∀ records : List GraphRecord,
        (records.filter (GraphRecord.mentions id)).filter (GraphRecord.concerns id) =
          records.filter (GraphRecord.concerns id) := by
      intro records
      rw [List.filter_filter]
      apply List.filter_congr
      intro record _
      cases concerns : record.concerns id with
      | false => rfl
      | true => rw [mentions_of_concerns concerns, Bool.true_and]
    rw [← narrower, reordered.same, narrower]

/-- The liveness of an ID is that of the records that concern it. -/
theorem deleted_filter_concerns (records : List GraphRecord) (id : String) :
    (Liveness.new (records.filter (GraphRecord.concerns id))).deleted id =
      (Liveness.new records).deleted id := by
  have temporal : Liveness.temporalId (records.filter (GraphRecord.concerns id)) id =
      Liveness.temporalId records id := by
    rw [Liveness.temporalId, Liveness.temporalId, List.any_filter]
    refine List.any_congr rfl fun record => ?_
    cases written : record.writes id with
    | false => simp
    | true => simp [concerns_of_writes written]
  rw [Liveness.deleted_new, Liveness.deleted_new, temporal, unanswered_filter]
  rintro record - (deletes | written)
  · exact concerns_of_deletes deletes
  · exact concerns_of_writes written

/-- What is deleted stays so. -/
theorem Reordered.deleted (reordered : Reordered records others) (id : String) :
    (Liveness.new others).deleted id = (Liveness.new records).deleted id := by
  rw [← deleted_filter_concerns, reordered.same, deleted_filter_concerns]

/-- The live record of an ID is that of the records under it. -/
theorem ReorderedById.liveById (reordered : ReorderedById records others) (id : String) :
    (Egregore.liveById (Liveness.new others) others)[id]? =
      (Egregore.liveById (Liveness.new records) records)[id]? := by
  have last : ∀ records : List GraphRecord,
      lastEvent (fun record => record.id = id) (records.filter (GraphRecord.mentions id)) =
        lastEvent (fun record => record.id = id) records := fun records =>
    lastEvent_filter records fun record _ named => by
      rw [GraphRecord.mentions, named, Bool.true_or]
  rw [getElem?_liveById, getElem?_liveById, reordered.toReordered.deleted, ← last, reordered.same,
    last]

/-- The same IDs are known. -/
theorem ReorderedById.known (reordered : ReorderedById records others) {id : String} :
    Known others id ↔ Known records id := by
  rw [← isSome_liveById, reordered.liveById, isSome_liveById]

end Reordered

end Egregore
