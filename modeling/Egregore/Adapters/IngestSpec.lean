import Egregore.Adapters.Ingest

/-!
# What an ingest writes

The quarantine loop computes a least fixpoint: the records with a citation that
resolves to nothing, or only to such a record. What is left is written with every
tombstone after every node and edge. `written_citations_live_iff` says when every
citation that is written is live, and `ingested_live_iff` when a record that is
ingested is live afterwards. Both conditions are on the batch and the store as they
are before, and name the least lost set alone.
-/

namespace Egregore

open Base

section Order

instance : IsTrans GraphRecord orderedBefore where
  trans first second third := by
    rintro (less | ⟨same, ordered⟩) (less' | ⟨same', ordered'⟩)
    · exact Or.inl (by omega)
    · exact Or.inl (by omega)
    · exact Or.inl (by omega)
    · refine Or.inr ⟨same.trans same', ?_⟩
      exact Ordering.isLE_iff_ne_gt.mp (Std.TransCmp.isLE_trans
        (Ordering.isLE_iff_ne_gt.mpr ordered) (Ordering.isLE_iff_ne_gt.mpr ordered'))

instance : Std.Total orderedBefore where
  total first second := by
    rcases Nat.lt_trichotomy (recordClass first) (recordClass second) with less | same | more
    · exact Or.inl (Or.inl less)
    · by_cases after : byteOrder first.id second.id = .gt
      · refine Or.inr (Or.inr ⟨same.symm, ?_⟩)
        have before : byteOrder second.id first.id = .lt := Std.OrientedCmp.lt_of_gt after
        simp [before]
      · exact Or.inl (Or.inr ⟨same, after⟩)
    · exact Or.inr (Or.inl more)

/-- Ordering a batch loses no record. -/
theorem orderedRecords_perm (records : List GraphRecord) : (orderedRecords records).Perm records :=
  List.perm_insertionSort _ _

/-- So the ordered records are those of the batch. -/
theorem mem_orderedRecords {records : List GraphRecord} {record : GraphRecord} :
    record ∈ orderedRecords records ↔ record ∈ records :=
  (orderedRecords_perm records).mem_iff

/-- Nodes come first, then edges, then tombstones. -/
theorem orderedRecords_pairwise (records : List GraphRecord) :
    (orderedRecords records).Pairwise orderedBefore :=
  List.pairwise_insertionSort _ _

/-- No node or edge is ordered after a tombstone. -/
theorem not_writes_of_orderedBefore {record later : GraphRecord} {id other : String}
    (ordered : orderedBefore record later) (deletes : record.deletes id = true) :
    later.writes other = false := by
  cases record with
  | node record => simp [GraphRecord.deletes] at deletes
  | edge record => simp [GraphRecord.deletes] at deletes
  | tombstone record =>
      cases later with
      | node later => simp [orderedBefore, recordClass] at ordered
      | edge later => simp [orderedBefore, recordClass] at ordered
      | tombstone later => rfl

end Order

section Quarantine

variable (inStore : String → Bool) (records : List GraphRecord)

/-- The records a batch loses: a citation names nothing live, or names only a record of the batch
that is itself lost. -/
inductive Dangling : String → Prop where
  | absent {record : GraphRecord} {label : EdgeLabel} {target : String}
      (member : record ∈ records) (cites : Cites record label target)
      (seen : ¬ Overlooked record label) (unresolved : batchLiveNode records target = false)
      (lost : (Liveness.new records).deleted target = true ∨ inStore target = false) :
      Dangling record.id
  | cascade {record : GraphRecord} {label : EdgeLabel} {target : String}
      (member : record ∈ records) (cites : Cites record label target)
      (seen : ¬ Overlooked record label) (dangling : Dangling target)
      (lost : inStore target = false) :
      Dangling record.id

variable {inStore records}

/-- A target dangles when neither the batch nor the store holds it live. -/
theorem targetIsLive_eq_false {quarantined : StrSet} {target : String} :
    targetIsLive inStore records quarantined target = false ↔
      (batchLiveNode records target = true → target ∈ quarantined) ∧
        ((Liveness.new records).deleted target = true ∨ inStore target = false) := by
  rw [targetIsLive, Std.ExtTreeSet.mem_iff_contains]
  cases batchLiveNode records target <;> cases quarantined.contains target <;>
    cases (Liveness.new records).deleted target <;> simp

/-- The citations of a citer, in input order. -/
theorem byCiter_getD (records : List GraphRecord) (citer : String) :
    (byCiter records).getD citer [] =
      (collectEvidenceCitations records).filter fun citation => citation.citingRecordId = citer := by
  rw [byCiter]
  induction collectEvidenceCitations records using List.reverseRecOn with
  | nil => simp
  | append_singleton citations citation ih =>
      rw [List.foldl_append, List.foldl_cons, List.foldl_nil, Std.ExtTreeMap.getD_alter,
        List.filter_append, ← ih]
      by_cases same : citation.citingRecordId = citer
      · simp [same, Std.ExtTreeMap.getD_eq_getD_getElem?]
      · simp [same]

/-- The citations are collected by the record that makes them. -/
theorem mem_byCiter_getD {citer : String} {citation : EvidenceCitation} :
    citation ∈ (byCiter records).getD citer [] ↔
      ∃ record ∈ records, record.id = citer ∧ citation ∈ citationsOf record := by
  rw [byCiter_getD, List.mem_filter, collectEvidenceCitations, List.mem_flatMap]
  constructor
  · rintro ⟨⟨record, member, cited⟩, same⟩
    have named := citingRecordId_of_mem cited
    exact ⟨record, member, by rw [← named]; simpa using same, cited⟩
  · rintro ⟨record, member, rfl, cited⟩
    exact ⟨⟨record, member, cited⟩, by simpa using citingRecordId_of_mem cited⟩

/-- A record with citations has an entry. -/
theorem mem_byCiter_keys {citer : String} {citation : EvidenceCitation}
    (cited : citation ∈ (byCiter records).getD citer []) : citer ∈ (byCiter records).keys := by
  rw [Std.ExtTreeMap.mem_keys]
  by_contra absent
  rw [Std.ExtTreeMap.getD_eq_fallback absent] at cited
  contradiction

/-- The rule of a round: some citation of the record dangles. -/
def citerDangles (inStore : String → Bool) (records : List GraphRecord) (quarantined : StrSet)
    (citer : String) : Bool :=
  (danglingCitation inStore records quarantined citer).isSome

/-- A record dangles when one of its citations does. -/
theorem citerDangles_iff {quarantined : StrSet} {citer : String} :
    citerDangles inStore records quarantined citer = true ↔
      ∃ record ∈ records, record.id = citer ∧ ∃ citation ∈ citationsOf record,
        targetIsLive inStore records quarantined citation.targetRecordId = false := by
  rw [citerDangles, danglingCitation, List.find?_isSome]
  constructor
  · rintro ⟨citation, member, dangles⟩
    obtain ⟨record, inBatch, same, cited⟩ := mem_byCiter_getD.mp member
    exact ⟨record, inBatch, same, citation, cited, by simpa using dangles⟩
  · rintro ⟨record, inBatch, same, citation, cited, dangles⟩
    exact ⟨citation, mem_byCiter_getD.mpr ⟨record, inBatch, same, cited⟩, by simpa using dangles⟩

/-- What a round adds is what its rule fires for. -/
theorem map_fst_newly (json : List (String × String) → String) (quarantined : StrSet)
    (citers : List String) :
    (citers.filterMap fun citer =>
      if quarantined.contains citer then none
      else (danglingCitation inStore records quarantined citer).map fun citation =>
        (citer, danglingCitationDiagnostic json citation)).map Prod.fst =
      firing (citerDangles inStore records) citers quarantined := by
  rw [firing, List.map_filterMap, ← List.filterMap_eq_filter]
  congr 1
  ext citer
  cases inside : quarantined.contains citer <;>
    cases found : danglingCitation inStore records quarantined citer <;>
      simp [inside, found, citerDangles, Option.guard]

/-- The loop is the saturation of its rule, diagnostics aside. -/
theorem quarantineLoop_eq_saturate (json : List (String × String) → String) (rounds : Nat)
    (quarantined : StrSet) (diagnostics : StrMap String) :
    (quarantineLoop inStore records json rounds quarantined diagnostics).1 =
      saturate (citerDangles inStore records) (byCiter records).keys rounds quarantined := by
  induction rounds generalizing quarantined diagnostics with
  | zero => rfl
  | succ rounds ih =>
      rw [quarantineLoop, saturate, ← map_fst_newly json, List.isEmpty_map, List.foldl_map]
      split
      · rfl
      · exact ih _ _

/-- A batch loses exactly its dangling records. -/
theorem mem_quarantine_iff (json : List (String × String) → String) {id : String} :
    id ∈ (quarantine inStore records json).1 ↔ Dangling inStore records id := by
  rw [quarantine, quarantineLoop_eq_saturate]
  constructor
  · have closed : ∀ quarantined : StrSet,
        (∀ citer ∈ quarantined, Dangling inStore records citer) →
        ∀ citer ∈ (byCiter records).keys, citerDangles inStore records quarantined citer = true →
          Dangling inStore records citer := ?_
    · exact saturate_least closed _ ∅ (by simp) id
    intro quarantined sound citer _ fired
    obtain ⟨record, member, rfl, citation, cited, dangles⟩ := citerDangles_iff.mp fired
    obtain ⟨label, cites, seen⟩ := cites_of_mem_citationsOf cited
    obtain ⟨cascades, lost⟩ := targetIsLive_eq_false.mp dangles
    cases unresolved : batchLiveNode records citation.targetRecordId with
    | false => exact .absent member cites seen unresolved lost
    | true =>
        refine .cascade member cites seen (sound _ (cascades unresolved)) ?_
        have live : (Liveness.new records).deleted citation.targetRecordId = false := by
          simp only [batchLiveNode, Bool.and_eq_true, Bool.not_eq_true'] at unresolved
          exact unresolved.2
        simpa [live] using lost
  · -- The rounds end at a set that is closed under both rules.
    have closed : ∀ {record : GraphRecord} {citation : EvidenceCitation}, record ∈ records →
        citation ∈ citationsOf record →
        targetIsLive inStore records (saturate (citerDangles inStore records)
          (byCiter records).keys ((byCiter records).size + 1) ∅) citation.targetRecordId = false →
        record.id ∈ saturate (citerDangles inStore records) (byCiter records).keys
          ((byCiter records).size + 1) ∅ := by
      intro record citation member cited dangles
      refine saturate_closed _ ∅ ?_ (mem_byCiter_keys (mem_byCiter_getD.mpr
        ⟨record, member, rfl, cited⟩)) (citerDangles_iff.mpr
          ⟨record, member, rfl, citation, cited, dangles⟩)
      have bound := List.length_filter_le (fun citer => !(∅ : StrSet).contains citer)
        (byCiter records).keys
      rw [Std.ExtTreeMap.length_keys] at bound
      omega
    intro dangling
    induction dangling with
    | absent member cites seen unresolved lost =>
        obtain ⟨citation, cited, rfl⟩ := exists_mem_citationsOf cites seen
        exact closed member cited (targetIsLive_eq_false.mpr ⟨by simp [unresolved], lost⟩)
    | cascade member cites seen _ lost ih =>
        obtain ⟨citation, cited, rfl⟩ := exists_mem_citationsOf cites seen
        exact closed member cited (targetIsLive_eq_false.mpr ⟨fun _ => ih, Or.inr lost⟩)

/-- A record that stays cites only what resolves: a live node of the batch that stays, or what the
store has and the batch does not delete. -/
theorem resolves_of_not_dangling {record : GraphRecord} {label : EdgeLabel} {target : String}
    (member : record ∈ records) (cites : Cites record label target)
    (seen : ¬ Overlooked record label) (stays : ¬ Dangling inStore records record.id) :
    (batchLiveNode records target = true ∧ ¬ Dangling inStore records target) ∨
      ((Liveness.new records).deleted target = false ∧ inStore target = true) := by
  cases stored : inStore target with
  | false =>
      refine Or.inl ⟨?_, fun dangling => stays (.cascade member cites seen dangling stored)⟩
      by_contra unresolved
      exact stays (.absent member cites seen (by simpa using unresolved) (Or.inr stored))
  | true =>
      cases deleted : (Liveness.new records).deleted target with
      | false => exact Or.inr ⟨rfl, rfl⟩
      | true =>
          exact absurd (.absent member cites seen (by simp [batchLiveNode, deleted])
            (Or.inl deleted)) stays

end Quarantine

section AcceptingSink

/-- A tombstone record whose own ID is `id`. -/
def GraphRecord.marks (id : String) : GraphRecord → Bool
  | .tombstone record => record.id = id
  | _ => false

/-- `read_back` of the embedded store in terms of the writes it accepted, oldest first: the latest
physical node, tombstone or edge under the ID, whatever was retracted since. -/
def physicalLatest (log : List GraphRecord) (id : String) : Option GraphRecord :=
  (lastEvent (GraphRecord.writesNode id) log).or
    ((lastEvent (GraphRecord.marks id) log).or (lastEvent (GraphRecord.writesEdge id) log))

/-- A store that accepts every write; its state is the log of them. -/
def acceptingSink : GraphSink (List GraphRecord) where
  readBack log id := .ok (physicalLatest log id)
  writeAndVerifyRecords log records := (log ++ records, records.map fun _ => .ok .inserted)

/-- The last write or tombstone of `id` is a tombstone. -/
def retracted (log : List GraphRecord) (id : String) : Bool :=
  unanswered (GraphRecord.deletes id) (GraphRecord.writes id) log

/-- A live node of a store. -/
def LiveNode (log : List GraphRecord) (id : String) : Prop :=
  (∃ record ∈ log, record.writesNode id = true) ∧ retracted log id = false

/-- The accepting sink has the nodes of its log. -/
theorem storeHasNode_acceptingSink {log : List GraphRecord} {id : String} :
    storeHasNode acceptingSink log id = true ↔ ∃ record ∈ log, record.writesNode id = true := by
  have answer : acceptingSink.readBack log id = .ok (physicalLatest log id) := rfl
  rw [storeHasNode, answer]
  cases found : lastEvent (GraphRecord.writesNode id) log with
  | some record =>
      obtain ⟨member, writes⟩ := mem_of_lastEvent found
      have latest : physicalLatest log id = some record := by simp [physicalLatest, found]
      rw [latest]
      cases record with
      | node record => exact iff_of_true rfl ⟨.node record, member, writes⟩
      | edge record => simp [GraphRecord.writesNode] at writes
      | tombstone record => simp [GraphRecord.writesNode] at writes
  | none =>
      have absent : ∀ record ∈ log, ¬ record.writesNode id = true := by
        rw [lastEvent, List.getLast?_eq_none_iff, List.filter_eq_nil_iff] at found
        exact found
      have unwritten : ¬ ∃ record ∈ log, record.writesNode id = true := by
        rintro ⟨record, member, writes⟩
        exact absent record member writes
      refine iff_of_false ?_ unwritten
      split
      · next record latest =>
          simp only [physicalLatest, found, Option.none_or, Except.ok.injEq,
            Option.or_eq_some_iff] at latest
          rcases latest with marked | ⟨-, edge⟩
          · simpa [GraphRecord.marks] using (mem_of_lastEvent marked).2
          · simpa [GraphRecord.writesEdge] using (mem_of_lastEvent edge).2
      · simp

variable (json : List (String × String) → String) (records log : List GraphRecord)

/-- The store after `ingest_records`. -/
def ingested : List GraphRecord :=
  (ingestRecordsWithPolicy acceptingSink json records log .quarantine).1

/-- The records an ingest added to the store. -/
def written : List GraphRecord := (ingested json records log).drop log.length

/-- A record that the batch loses against the store. -/
def Lost (id : String) : Prop := Dangling (storeHasNode acceptingSink log) records id

/-- It takes every record that is not quarantined, in order. -/
theorem writeAndTally_acceptingSink (quarantined : StrSet) (diagnostics : StrMap String)
    (ordered run log : List GraphRecord) (report : IngestReport) :
    (writeAndTally acceptingSink quarantined diagnostics ordered run log report).1 =
      log ++ run ++ ordered.filter fun record => !quarantined.contains record.id := by
  have writes : ∀ (run log : List GraphRecord) (report : IngestReport),
      (writeRun acceptingSink log report run).1 = log ++ run := by
    intro run log report
    cases run with
    | nil => simp [writeRun]
    | cons record run => rfl
  induction ordered generalizing run log report with
  | nil => simp [writeAndTally, writes]
  | cons record ordered ih =>
      rw [writeAndTally]
      cases inside : quarantined.contains record.id with
      | true => simp [ih, writes, inside]
      | false => simp [ih, inside]

/-- So the log grows by the kept records of the batch. -/
theorem ingested_eq :
    ingested json records log = log ++ (orderedRecords records).filter fun record =>
      !(quarantine (storeHasNode acceptingSink log) records json).1.contains record.id := by
  rw [ingested, ingestRecordsWithPolicy]
  simpa using writeAndTally_acceptingSink _ _ (orderedRecords records) [] log {}

variable {json records log}

/-- These are the written ones. -/
theorem ingested_eq_append : ingested json records log = log ++ written json records log := by
  rw [written, ingested_eq, List.drop_left]

/-- A record is written unless it is lost. -/
theorem mem_written {record : GraphRecord} :
    record ∈ written json records log ↔ record ∈ records ∧ ¬ Lost records log record.id := by
  rw [written, ingested_eq, List.drop_left, List.mem_filter, mem_orderedRecords, Lost,
    ← mem_quarantine_iff json, Std.ExtTreeSet.mem_iff_contains, Bool.not_eq_true', Bool.not_eq_true]

/-- The written records are in the order of the batch. -/
theorem written_pairwise : (written json records log).Pairwise orderedBefore := by
  rw [written, ingested_eq, List.drop_left]
  exact (orderedRecords_pairwise records).filter _

/-- Whatever the input order was, a tombstone that is written retracts its ID. -/
theorem retracted_written {id : String} :
    retracted (written json records log) id = true ↔
      ∃ record ∈ records, record.deletes id = true ∧ ¬ Lost records log record.id := by
  rw [retracted, unanswered_of_pairwise (written_pairwise.imp fun ordered =>
    not_writes_of_orderedBefore ordered), List.any_eq_true]
  constructor
  · rintro ⟨record, member, deletes⟩
    obtain ⟨inBatch, stays⟩ := mem_written.mp member
    exact ⟨record, inBatch, deletes, stays⟩
  · rintro ⟨record, inBatch, deletes, stays⟩
    exact ⟨record, mem_written.mpr ⟨inBatch, stays⟩, deletes⟩

/-- After an ingest an ID is retracted by the batch, or as before when the batch does not write it.
-/
theorem retracted_ingested {id : String} :
    retracted (ingested json records log) id = true ↔
      (∃ record ∈ records, record.deletes id = true ∧ ¬ Lost records log record.id) ∨
        retracted log id = true ∧ ∀ record ∈ records, record.writes id = true →
          Lost records log id := by
  rw [ingested_eq_append, retracted, unanswered_append, Bool.or_eq_true, Bool.and_eq_true,
    ← retracted, ← retracted, retracted_written, List.all_eq_true]
  refine or_congr_right (and_congr_right fun _ => ?_)
  constructor
  · intro silent record inBatch writes
    by_contra stays
    have := silent record (mem_written.mpr ⟨inBatch, by rwa [GraphRecord.id_of_writes writes]⟩)
    simp [writes] at this
  · intro lost record member
    obtain ⟨inBatch, stays⟩ := mem_written.mp member
    cases writes : record.writes id with
    | false => rfl
    | true =>
        rw [GraphRecord.id_of_writes writes] at stays
        exact absurd (lost record inBatch writes) stays

/-- A node is live after an ingest when it was written and nothing kept deletes it. -/
theorem liveNode_ingested {id : String} :
    LiveNode (ingested json records log) id ↔
      ((∃ record ∈ log, record.writesNode id = true) ∨
        (∃ record ∈ records, record.writesNode id = true) ∧ ¬ Lost records log id) ∧
      (∀ record ∈ records, record.deletes id = true → Lost records log record.id) ∧
      (retracted log id = true →
        (∃ record ∈ records, record.writes id = true) ∧ ¬ Lost records log id) := by
  refine and_congr ?_ ?_
  · rw [ingested_eq_append]
    constructor
    · rintro ⟨record, member, writes⟩
      rcases List.mem_append.mp member with stored | new
      · exact Or.inl ⟨record, stored, writes⟩
      · obtain ⟨inBatch, stays⟩ := mem_written.mp new
        rw [GraphRecord.id_of_writes (GraphRecord.writes_eq_true.mpr (Or.inl writes))] at stays
        exact Or.inr ⟨⟨record, inBatch, writes⟩, stays⟩
    · rintro (⟨record, stored, writes⟩ | ⟨⟨record, inBatch, writes⟩, stays⟩)
      · exact ⟨record, List.mem_append_left _ stored, writes⟩
      · refine ⟨record, List.mem_append_right _ (mem_written.mpr ⟨inBatch, ?_⟩), writes⟩
        rwa [GraphRecord.id_of_writes (GraphRecord.writes_eq_true.mpr (Or.inl writes))]
  · rw [← Bool.not_eq_true, retracted_ingested, not_or]
    refine and_congr ?_ ?_
    · push Not
      rfl
    · constructor
      · intro notLost retracted_
        by_contra none
        refine notLost ⟨retracted_, fun record inBatch writes => ?_⟩
        by_contra stays
        exact none ⟨⟨record, inBatch, writes⟩, stays⟩
      · rintro revived ⟨retracted_, lost⟩
        obtain ⟨⟨record, inBatch, writes⟩, stays⟩ := revived retracted_
        exact stays (lost record inBatch writes)

/-- What keeps a citation's target live through the reordering: no tombstone of it is written, a
retracted target is written again, and a target that no check saw is there. -/
structure Upheld (records log : List GraphRecord) (record : GraphRecord) (label : EdgeLabel)
    (target : String) : Prop where
  unretracted : ∀ tombstone ∈ records, tombstone.deletes target = true →
    Lost records log tombstone.id
  revived : retracted log target = true →
    (∃ other ∈ records, other.writes target = true) ∧ ¬ Lost records log target
  present : Overlooked record label → (∃ stored ∈ log, stored.writesNode target = true) ∨
    (∃ other ∈ records, other.writesNode target = true) ∧ ¬ Lost records log target

/-- The check vouches for the node, not for what becomes of it. -/
theorem liveNode_ingested_iff_upheld {record : GraphRecord} {label : EdgeLabel} {target : String}
    (member : record ∈ records) (stays : ¬ Lost records log record.id)
    (cites : Cites record label target) :
    LiveNode (ingested json records log) target ↔ Upheld records log record label target := by
  rw [liveNode_ingested]
  constructor
  · rintro ⟨present, unretracted, revived⟩
    exact ⟨unretracted, revived, fun _ => present⟩
  · rintro ⟨unretracted, revived, present⟩
    refine ⟨?_, unretracted, revived⟩
    by_cases overlooked : Overlooked record label
    · exact present overlooked
    · rcases resolves_of_not_dangling member cites overlooked stays with ⟨live, kept⟩ | ⟨-, stored⟩
      · simp only [batchLiveNode, Bool.and_eq_true, List.any_eq_true] at live
        exact Or.inr ⟨live.1, kept⟩
      · exact Or.inl (storeHasNode_acceptingSink.mp stored)

/-- An ingest leaves no dangling citation exactly when every citation it keeps is upheld. -/
theorem written_citations_live_iff (json : List (String × String) → String)
    (records log : List GraphRecord) :
    (∀ record ∈ written json records log, ∀ label target, Cites record label target →
      LiveNode (ingested json records log) target) ↔
    ∀ record ∈ records, ¬ Lost records log record.id →
      ∀ label target, Cites record label target → Upheld records log record label target := by
  constructor
  · intro live record member stays label target cites
    exact (liveNode_ingested_iff_upheld member stays cites).mp
      (live record (mem_written.mpr ⟨member, stays⟩) label target cites)
  · intro upheld record new label target cites
    obtain ⟨member, stays⟩ := mem_written.mp new
    exact (liveNode_ingested_iff_upheld member stays cites).mpr
      (upheld record member stays label target cites)

/-- A run that names its task. -/
def citingEdge : EdgeRecord where
  id := "edge"
  schemaVersion := 1
  label := .ownedByTask
  source := "run"
  target := "task"

/-- A batch whose node comes back after its tombstone, and is cited. -/
def revivedTargetBatch : List GraphRecord :=
  [.tombstone { id := "tombstone", schemaVersion := 1, deletedId := "task" },
    .node { id := "task", kind := .task, schemaVersion := 1 }, .edge citingEdge]

/-- The edge passes the check and is written; the tombstone is written after its target. -/
theorem revivedTargetBatch_dangles :
    ¬ ∀ record ∈ written (fun _ => "") revivedTargetBatch [], ∀ label target,
      Cites record label target → LiveNode (ingested (fun _ => "") revivedTargetBatch []) target := by
  intro live
  have target := (live (.edge citingEdge) (by decide) _ _ (.edge citingEdge rfl)).2
  revert target
  decide

/-- An ID of the store whose last line is not a tombstone. -/
def LiveId (log : List GraphRecord) (id : String) : Prop :=
  (∃ record ∈ log, record.writes id = true) ∧ retracted log id = false

/-- An ingest keeps the meaning of the input order exactly when a tombstone that is written comes
after every write of its ID, and the tombstone that retracts an ID is written. -/
theorem ingested_live_iff (json : List (String × String) → String) (records : List GraphRecord)
    (nonTemporal : ∀ record ∈ records, record.temporal = none) :
    (∀ id, (∃ record ∈ records, record.writes id = true) →
      id ∉ (quarantine (storeHasNode acceptingSink []) records json).1 →
      (LiveId (ingested json records []) id ↔ (Liveness.new records).deleted id = false)) ↔
    ∀ id, (∃ record ∈ records, record.writes id = true) → ¬ Lost records [] id →
      (∀ tombstone ∈ records, tombstone.deletes id = true → ¬ Lost records [] tombstone.id →
        retracted records id = true) ∧
      (retracted records id = true →
        ∃ tombstone ∈ records, tombstone.deletes id = true ∧ ¬ Lost records [] tombstone.id) := by
  refine forall_congr' fun id => forall_congr' fun inBatch => ?_
  rw [mem_quarantine_iff json, ← Lost]
  refine imp_congr_right fun stays => ?_
  have atemporal : Liveness.temporalId records id = false := by
    simpa [Liveness.temporalId] using fun record member _ => nonTemporal record member
  have stored : ∃ record ∈ ingested json records [], record.writes id = true := by
    obtain ⟨record, member, writes⟩ := inBatch
    refine ⟨record, ?_, writes⟩
    rw [ingested_eq_append]
    exact List.mem_append_right _ (mem_written.mpr
      ⟨member, by rwa [GraphRecord.id_of_writes writes]⟩)
  have retracts := @retracted_ingested json records [] id
  simp only [retracted, unanswered_nil, Bool.false_eq_true, false_and, or_false] at retracts
  rw [LiveId, and_iff_right stored, Liveness.deleted_new, atemporal, Bool.not_false, Bool.true_and,
    ← Bool.not_eq_true, ← Bool.not_eq_true, not_iff_not, retracted, retracts, retracted]
  constructor
  · intro same
    exact ⟨fun tombstone member deletes kept => same.mp ⟨tombstone, member, deletes, kept⟩, same.mpr⟩
  · rintro ⟨final, kept⟩
    refine ⟨?_, kept⟩
    rintro ⟨tombstone, member, deletes, stays⟩
    exact final tombstone member deletes stays

/-- The equivalence at this batch. -/
theorem revivedTargetBatch_live_iff :
    (∀ record ∈ revivedTargetBatch, record.temporal = none) ∧
    ((∀ id, (∃ record ∈ revivedTargetBatch, record.writes id = true) →
      id ∉ (quarantine (storeHasNode acceptingSink []) revivedTargetBatch fun _ => "").1 →
      (LiveId (ingested (fun _ => "") revivedTargetBatch []) id ↔
        (Liveness.new revivedTargetBatch).deleted id = false)) ↔
    ∀ id, (∃ record ∈ revivedTargetBatch, record.writes id = true) →
      ¬ Lost revivedTargetBatch [] id →
      (∀ tombstone ∈ revivedTargetBatch, tombstone.deletes id = true →
        ¬ Lost revivedTargetBatch [] tombstone.id → retracted revivedTargetBatch id = true) ∧
      (retracted revivedTargetBatch id = true →
        ∃ tombstone ∈ revivedTargetBatch, tombstone.deletes id = true ∧
          ¬ Lost revivedTargetBatch [] tombstone.id)) :=
  ⟨by decide, ingested_live_iff _ _ (by decide)⟩

/-- The node comes back in the input and is retracted in the store. -/
theorem revivedTargetBatch_not_live :
    ¬ ∀ id, (∃ record ∈ revivedTargetBatch, record.writes id = true) →
      id ∉ (quarantine (storeHasNode acceptingSink []) revivedTargetBatch fun _ => "").1 →
      (LiveId (ingested (fun _ => "") revivedTargetBatch []) id ↔
        (Liveness.new revivedTargetBatch).deleted id = false) := by
  intro same
  have live := ((same "task" (by decide) (by decide)).mpr (by decide)).2
  revert live
  decide

end AcceptingSink

end Egregore
