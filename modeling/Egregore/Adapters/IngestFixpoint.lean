import Egregore.Adapters.IngestSpec
import Egregore.Query.Reordered
import Mathlib.Order.Bounds.Basic

/-!
# The quarantine set

A batch quarantines the least set that is closed under the rule of its loop: a
record is in it as soon as one of its citations resolves neither to a live node of
the batch outside the set nor to the store. The order of the batch does not matter,
and under `reject-batch` the sink is called exactly when the set is empty.
`quarantine_least` says so of every batch and every fixed answer of the store.
-/

namespace Egregore

open Base

section Rule

variable (inStore : String → Bool) (records : List GraphRecord)

/-- A target resolves while the records `lost` are kept back: to a live node of the batch, or to
what the store has and the batch does not delete. -/
def Resolves (lost : Set String) (target : String) : Prop :=
  (batchLiveNode records target = true ∧ target ∉ lost) ∨
    ((Liveness.new records).deleted target = false ∧ inStore target = true)

/-- The records that must be kept back with `lost`: one of their citations does not resolve. -/
def Fires (lost : Set String) (citer : String) : Prop :=
  ∃ record ∈ records, record.id = citer ∧ ∃ citation ∈ citationsOf record,
    ¬ Resolves inStore records lost citation.targetRecordId

/-- The sets that the rule of the loop does not leave. -/
def closedSets : Set (Set String) :=
  {lost | ∀ citer, Fires inStore records lost citer → citer ∈ lost}

/-- The IDs that the loop quarantines. -/
def quarantinedIds (json : List (String × String) → String) : Set String :=
  {id | id ∈ (quarantine inStore records json).1}

variable {inStore records}

theorem mem_quarantinedIds {json : List (String × String) → String} {id : String} :
    id ∈ quarantinedIds inStore records json ↔ Dangling inStore records id :=
  mem_quarantine_iff json

theorem not_deleted_of_batchLiveNode {target : String}
    (live : batchLiveNode records target = true) :
    (Liveness.new records).deleted target = false := by
  rw [batchLiveNode, Bool.and_eq_true, Bool.not_eq_true'] at live
  exact live.2

theorem not_resolves_iff {lost : Set String} {target : String} :
    ¬ Resolves inStore records lost target ↔
      (batchLiveNode records target = true → target ∈ lost) ∧
        ((Liveness.new records).deleted target = true ∨ inStore target = false) := by
  rw [Resolves, not_or, not_and, not_not, not_and_or, Bool.not_eq_false, Bool.not_eq_true]

/-- The loop's set is closed: what dangles while it is kept back is in it. -/
theorem quarantinedIds_closed (json : List (String × String) → String) :
    quarantinedIds inStore records json ∈ closedSets inStore records := by
  rintro citer ⟨record, member, rfl, citation, cited, unresolved⟩
  obtain ⟨label, cites, seen⟩ := cites_of_mem_citationsOf cited
  obtain ⟨cascades, lost⟩ := not_resolves_iff.mp unresolved
  apply mem_quarantinedIds.mpr
  cases live : batchLiveNode records citation.targetRecordId with
  | false => exact .absent member cites seen live lost
  | true =>
      have dangling := mem_quarantinedIds.mp (cascades live)
      have undeleted := not_deleted_of_batchLiveNode live
      refine .cascade member cites seen dangling ?_
      simpa [undeleted] using lost

/-- Every closed set contains what dangles. -/
theorem mem_closedSet_of_dangling {lost : Set String} (closed : lost ∈ closedSets inStore records)
    {id : String} (dangling : Dangling inStore records id) : id ∈ lost := by
  induction dangling with
  | @absent record label target member cites seen unresolved missing =>
      obtain ⟨citation, cited, rfl⟩ := exists_mem_citationsOf cites seen
      apply closed
      refine ⟨record, member, rfl, citation, cited, not_resolves_iff.mpr ⟨?_, missing⟩⟩
      simp [unresolved]
  | @cascade record label target member cites seen _ missing ih =>
      obtain ⟨citation, cited, rfl⟩ := exists_mem_citationsOf cites seen
      apply closed
      exact ⟨record, member, rfl, citation, cited,
        not_resolves_iff.mpr ⟨fun _ => ih, Or.inr missing⟩⟩

theorem quarantinedIds_isLeast (json : List (String × String) → String) :
    IsLeast (closedSets inStore records) (quarantinedIds inStore records json) := by
  refine ⟨quarantinedIds_closed json, fun lost closed id quarantined => ?_⟩
  exact mem_closedSet_of_dangling closed (mem_quarantinedIds.mp quarantined)

end Rule

section Order

variable {records others : List GraphRecord}

theorem Reordered.batchLiveNode (reordered : Reordered records others) (target : String) :
    Egregore.batchLiveNode others target = Egregore.batchLiveNode records target := by
  rw [Egregore.batchLiveNode, Egregore.batchLiveNode, reordered.deleted, reordered.perm.any_eq]

theorem Reordered.resolves (reordered : Reordered records others) (inStore : String → Bool)
    (lost : Set String) (target : String) :
    Resolves inStore others lost target ↔ Resolves inStore records lost target := by
  rw [Resolves, Resolves, reordered.batchLiveNode, reordered.deleted]

theorem Reordered.fires (reordered : Reordered records others) (inStore : String → Bool)
    (lost : Set String) (citer : String) :
    Fires inStore others lost citer ↔ Fires inStore records lost citer := by
  simp only [Fires, reordered.perm.mem_iff, reordered.resolves]

/-- The rule reads the batch up to the order of its IDs. -/
theorem Reordered.closedSets (reordered : Reordered records others) (inStore : String → Bool) :
    Egregore.closedSets inStore others = Egregore.closedSets inStore records := by
  ext lost
  exact forall_congr' fun citer => imp_congr_left (reordered.fires inStore lost citer)

theorem Reordered.quarantinedIds (reordered : Reordered records others) (inStore : String → Bool)
    (json : List (String × String) → String) :
    Egregore.quarantinedIds inStore others json = Egregore.quarantinedIds inStore records json := by
  have least : IsLeast (Egregore.closedSets inStore others)
      (Egregore.quarantinedIds inStore others json) := quarantinedIds_isLeast json
  rw [reordered.closedSets] at least
  exact least.unique (quarantinedIds_isLeast json)

end Order

section Rounds

variable {inStore : String → Bool} {records : List GraphRecord}

/-- Once the rounds suffice, more of them change nothing. -/
theorem quarantineLoop_add (json : List (String × String) → String) (more rounds : Nat)
    (quarantined : StrSet) (diagnostics : StrMap String)
    (enough : ((byCiter records).keys.filter fun citer => !quarantined.contains citer).length <
      rounds) :
    quarantineLoop inStore records json (rounds + more) quarantined diagnostics =
      quarantineLoop inStore records json rounds quarantined diagnostics := by
  induction rounds generalizing quarantined diagnostics with
  | zero => omega
  | succ rounds ih =>
      rw [Nat.succ_add, quarantineLoop, quarantineLoop]
      split
      · rfl
      · next busy =>
          apply ih
          have shorter := @length_remaining_lt _ _ _ _ (citerDangles inStore records)
            (byCiter records).keys quarantined
          rw [← map_fst_newly json, List.isEmpty_map, List.foldl_map] at shorter
          exact lt_of_lt_of_le (shorter busy) (by omega)

/-- The loop ends within a round for each citing record and one more. -/
theorem quarantine_rounds (json : List (String × String) → String) (rounds : Nat)
    (enough : (byCiter records).size < rounds) :
    quarantineLoop inStore records json rounds ∅ ∅ = quarantine inStore records json := by
  obtain ⟨more, rfl⟩ := Nat.exists_eq_add_of_le (Nat.succ_le_of_lt enough)
  rw [quarantine]
  apply quarantineLoop_add
  have bound := List.length_filter_le (fun citer => !(∅ : StrSet).contains citer)
    (byCiter records).keys
  rw [Std.ExtTreeMap.length_keys] at bound
  omega

end Rounds

section Rejected

variable {σ : Type}

/-- The sink with a log of the records it was handed. -/
def GraphSink.traced (sink : GraphSink σ) : GraphSink (σ × List GraphRecord) where
  readBack state id := sink.readBack state.1 id
  writeAndVerifyRecords state records :=
    let (inner, results) := sink.writeAndVerifyRecords state.1 records
    ((inner, state.2 ++ records), results)

variable (sink : GraphSink σ)

theorem writeRun_traced (state : σ × List GraphRecord) (report : IngestReport)
    (run : List GraphRecord) :
    (writeRun sink.traced state report run).1.2 = state.2 ++ run := by
  cases run with
  | nil => simp [writeRun]
  | cons record run => rfl

/-- All records of the batch but the quarantined ones reach the sink. -/
theorem writeAndTally_traced (quarantined : StrSet) (diagnostics : StrMap String)
    (ordered run : List GraphRecord) (state : σ × List GraphRecord) (report : IngestReport) :
    (writeAndTally sink.traced quarantined diagnostics ordered run state report).1.2 =
      state.2 ++ run ++ ordered.filter fun record => !quarantined.contains record.id := by
  induction ordered generalizing run state report with
  | nil => simp [writeAndTally, writeRun_traced]
  | cons record ordered ih =>
      rw [writeAndTally]
      cases inside : quarantined.contains record.id with
      | true => simp [ih, writeRun_traced, inside]
      | false => simp [ih, inside]

/-- The records that reach the sink under `reject-batch`. -/
def handedOver (json : List (String × String) → String) (records : List GraphRecord) (state : σ) :
    List GraphRecord :=
  (ingestRecordsWithPolicy sink.traced json records (state, []) .rejectBatch).1.2

section

variable (json : List (String × String) → String) (records : List GraphRecord) (state : σ)

/-- Under `reject-batch`, no record reaches the sink as soon as one is quarantined. -/
theorem handedOver_eq :
    handedOver sink json records state =
      match (quarantine (storeHasNode sink state) records json).1.min? with
      | some _ => []
      | none => (orderedRecords records).filter fun record =>
          !(quarantine (storeHasNode sink state) records json).1.contains record.id := by
  have same : storeHasNode sink.traced (state, []) = storeHasNode sink state := rfl
  rw [handedOver, ingestRecordsWithPolicy, same]
  rcases quarantine (storeHasNode sink state) records json with ⟨quarantined, diagnostics⟩
  cases first : quarantined.min? with
  | some first => simp only [first]
  | none =>
      simp only [first]
      simpa using writeAndTally_traced sink quarantined diagnostics (orderedRecords records) []
        (state, []) {}

theorem handedOver_of_quarantined
    (some : (quarantinedIds (storeHasNode sink state) records json).Nonempty) :
    handedOver sink json records state = [] := by
  rw [handedOver_eq]
  cases first : (quarantine (storeHasNode sink state) records json).1.min? with
  | some first => rfl
  | none =>
      obtain ⟨id, member⟩ := some
      have inside : id ∈ (quarantine (storeHasNode sink state) records json).1 := member
      rw [Std.ExtTreeSet.min?_eq_none_iff] at first
      simp [first] at inside

/-- With none quarantined, the whole batch reaches the sink. -/
theorem handedOver_of_none
    (none : ¬ (quarantinedIds (storeHasNode sink state) records json).Nonempty) :
    handedOver sink json records state = orderedRecords records := by
  have empty : ∀ id : String,
      (quarantine (storeHasNode sink state) records json).1.contains id = false := by
    intro id
    by_contra inside
    rw [Bool.not_eq_false, ← Std.ExtTreeSet.mem_iff_contains] at inside
    exact none ⟨id, inside⟩
  rw [handedOver_eq]
  cases first : (quarantine (storeHasNode sink state) records json).1.min? with
  | none => simp [empty]
  | some first =>
      have inside := Std.ExtTreeSet.min?_mem first
      rw [Std.ExtTreeSet.mem_iff_contains, empty] at inside
      contradiction

end

/-- The quarantine set of a batch, against a sink in any state: the rounds end, at the least set
that the rule does not leave; another order of the batch gives the same set; and a batch of at least
one record is kept from the sink exactly when the set is not empty. -/
theorem quarantine_least (sink : GraphSink σ) (json : List (String × String) → String)
    (records : List GraphRecord) (state : σ) :
    (∀ rounds, (byCiter records).size < rounds →
      quarantineLoop (storeHasNode sink state) records json rounds ∅ ∅ =
        quarantine (storeHasNode sink state) records json) ∧
    IsLeast {lost : Set String | ∀ citer, Fires (storeHasNode sink state) records lost citer →
      citer ∈ lost} (quarantinedIds (storeHasNode sink state) records json) ∧
    (∀ others, Reordered records others →
      quarantinedIds (storeHasNode sink state) others json =
        quarantinedIds (storeHasNode sink state) records json) ∧
    (records ≠ [] → (handedOver sink json records state = [] ↔
      (quarantinedIds (storeHasNode sink state) records json).Nonempty)) := by
  refine ⟨fun rounds => quarantine_rounds json rounds, quarantinedIds_isLeast json,
    fun others reordered => reordered.quarantinedIds _ json, fun nonempty => ⟨fun untouched => ?_,
      handedOver_of_quarantined sink json records state⟩⟩
  by_contra none
  rw [handedOver_of_none sink json records state none] at untouched
  have same := (orderedRecords_perm records).length_eq
  rw [untouched] at same
  exact nonempty (List.length_eq_zero_iff.mp same.symm)

/-- A task that cites another record inline. -/
def citingTask (id target : String) : GraphRecord :=
  .node
    { id := id,
      kind := .task,
      schemaVersion := 1,
      evidenceLinks := some
        [{ targetRecordId := some target,
           targetDomain := "agent",
           relation := EdgeLabel.hasEvidence.asStr }] }

/-- The first task cites nothing, the second cites the first, and two others cite each other. -/
def cascadingBatch : List GraphRecord :=
  [citingTask "second" "first", citingTask "left" "right", citingTask "right" "left",
    citingTask "first" "absent"]

/-- The loss cascades along the chain and leaves the pair alone. -/
theorem cascadingBatch_least :
    (quarantine (storeHasNode acceptingSink []) cascadingBatch fun _ => "").1.toList =
      ["first", "second"] ∧
    cascadingBatch ≠ [] ∧
    (handedOver acceptingSink (fun _ => "") cascadingBatch [] = [] ↔
      (quarantinedIds (storeHasNode acceptingSink []) cascadingBatch fun _ => "").Nonempty) :=
  have nonempty : cascadingBatch ≠ [] := by decide
  ⟨by decide, nonempty,
    (quarantine_least acceptingSink (fun _ => "") cascadingBatch []).2.2.2 nonempty⟩

/-- From the empty batch nothing is written, and nothing is quarantined. -/
theorem emptyBatch_not_quarantined :
    ¬ ∀ records : List GraphRecord,
      handedOver acceptingSink (fun _ => "") records [] = [] ↔
        (quarantinedIds (storeHasNode acceptingSink []) records fun _ => "").Nonempty := by
  intro exactly
  have none : ¬ (quarantinedIds (storeHasNode acceptingSink []) [] fun _ => "").Nonempty := by
    rintro ⟨id, member⟩
    cases mem_quarantinedIds.mp member with
    | absent inBatch => exact absurd inBatch List.not_mem_nil
    | cascade inBatch => exact absurd inBatch List.not_mem_nil
  apply none
  apply (exactly []).mp
  rw [handedOver_of_none _ _ _ _ none]
  rfl

end Rejected

end Egregore
