import Egregore.Adapters.BulkWrite
import Egregore.Adapters.Reopen
import Egregore.Daemon

/-!
# Retried writes

A pending receipt stands for a write that may or may not have reached the store. A retry goes by
what the store holds: all of the batch, none of it, or something else, and then it is refused.
Attempts may stop at any durable state, retries included. A write is a list of commits with a
durable state after each. `applyWrite_retryOutcome` follows every chain of crashes and retries
from such a state, and says what a last retry answers there.
-/

namespace Egregore

open Base

variable {σ : Type} {env : WriteEnv σ} {command : WriteCommand}

/-! ## Verdicts -/

/-- The keys of the records are pairwise different. -/
def DistinctKeys (env : WriteEnv σ) (records : List GraphRecord) : Prop :=
  (records.map (recoveryKey env)).Nodup

/-- Every record of the batch is in this state. -/
def AllExpected (env : WriteEnv σ) (store : σ) (records : List GraphRecord)
    (expected : ExpectedRecordState) : Prop :=
  ∀ record ∈ records, env.expectedRecordState store record = .ok expected

/-- Different keys are not ambiguous, by induction on the records still to be seen. -/
theorem hasAmbiguousRecoveryKeys_eq_false {records : List GraphRecord}
    (distinct : DistinctKeys env records) {seen : StrMap GraphRecord}
    (fresh : ∀ record ∈ records, seen[recoveryKey env record]? = none) :
    hasAmbiguousRecoveryKeys env records seen = false := by
  induction records generalizing seen with
  | nil => rfl
  | cons record rest ih =>
      obtain ⟨first, distinct⟩ := List.nodup_cons.mp distinct
      have absent : ∀ later ∈ rest,
          (seen.insert (recoveryKey env record) record)[recoveryKey env later]? = none := by
        intro later member
        have other : recoveryKey env record ≠ recoveryKey env later := fun same =>
          first (same ▸ List.mem_map_of_mem member)
        rw [Std.ExtTreeMap.getElem?_insert, if_neg (by simpa using other)]
        exact fresh later (List.mem_cons_of_mem _ member)
      rw [hasAmbiguousRecoveryKeys, fresh record List.mem_cons_self, ih distinct absent]
      rfl

/-- A batch can be recovered when its keys differ. -/
theorem unrecoverableKeys_eq_false_iff {records : List GraphRecord} :
    unrecoverableKeys env records = false ↔ DistinctKeys env records := by
  rw [unrecoverableKeys, hasDuplicateRecoveryKeys, Bool.or_eq_false_iff]
  constructor
  · rintro ⟨distinct, -⟩
    simpa [DistinctKeys] using distinct
  · intro distinct
    refine ⟨by simpa [DistinctKeys] using distinct, ?_⟩
    exact hasAmbiguousRecoveryKeys_eq_false distinct fun _ _ => by simp

/-- How many records of the batch are in this state. -/
def countExpected (env : WriteEnv σ) (store : σ) (records : List GraphRecord)
    (expected : ExpectedRecordState) : Nat :=
  records.countP fun record => env.expectedRecordState store record = .ok expected

/-- A tally that goes through counts the matched records and the mismatched ones. -/
theorem tallyExpected_eq_ok {store : σ} {records : List GraphRecord}
    {found conflicting : Nat} {counts : Nat × Nat}
    (tallied : tallyExpected env store records found conflicting = .ok counts) :
    counts = (found + countExpected env store records .matched,
        conflicting + countExpected env store records .mismatched) ∧
      records.length = countExpected env store records .matched +
        countExpected env store records .mismatched +
        countExpected env store records .missing := by
  induction records generalizing found conflicting with
  | nil => simpa [tallyExpected, countExpected, eq_comm] using tallied
  | cons record rest ih =>
      rw [tallyExpected] at tallied
      simp only [countExpected, List.countP_cons, List.length_cons] at ih ⊢
      cases state : env.expectedRecordState store record with
      | error fault => simp [state] at tallied
      | ok expected =>
          cases expected with
          | matched =>
              obtain ⟨counted, total⟩ := ih (by simpa [state] using tallied)
              simp only [counted, decide_true, if_true, Prod.mk.injEq]
              simp only [reduceCtorEq, Except.ok.injEq, decide_false, Bool.false_eq_true, if_false]
              omega
          | mismatched =>
              obtain ⟨counted, total⟩ := ih (by simpa [state] using tallied)
              simp only [counted, decide_true, if_true, Prod.mk.injEq]
              simp only [reduceCtorEq, Except.ok.injEq, decide_false, Bool.false_eq_true, if_false]
              omega
          | missing =>
              obtain ⟨counted, total⟩ := ih (by simpa [state] using tallied)
              simp only [counted, decide_true, if_true, Prod.mk.injEq]
              simp only [reduceCtorEq, Except.ok.injEq, decide_false, Bool.false_eq_true, if_false]
              omega

/-- It goes through when the state of every record can be told. -/
theorem tallyExpected_of_allExpected {store : σ} {records : List GraphRecord}
    {expected : ExpectedRecordState} (same : AllExpected env store records expected)
    (found conflicting : Nat) :
    ∃ counts, tallyExpected env store records found conflicting = .ok counts := by
  induction records generalizing found conflicting with
  | nil => exact ⟨_, rfl⟩
  | cons record rest ih =>
      have later : AllExpected env store rest expected := fun other member =>
        same other (List.mem_cons_of_mem _ member)
      rw [tallyExpected, same record List.mem_cons_self]
      cases expected <;> exact ih later _ _

/-- All records are counted when all are in that state. -/
theorem countExpected_eq_length_iff {store : σ} {records : List GraphRecord}
    {expected : ExpectedRecordState} :
    countExpected env store records expected = records.length ↔
      AllExpected env store records expected := by
  rw [countExpected, List.countP_eq_length]
  simp [AllExpected]

/-- What a verdict says: the keys are told apart, and the whole batch is there, or none of it. -/
theorem of_recoveryVerdict_ok {store : σ} {records : List GraphRecord} {there : Bool}
    (verdict : recoveryVerdict env records store = .ok there) :
    DistinctKeys env records ∧
      if there then records ≠ [] ∧ AllExpected env store records .matched
      else AllExpected env store records .missing := by
  rw [recoveryVerdict] at verdict
  split at verdict
  · cases verdict
  · next distinct =>
      refine ⟨unrecoverableKeys_eq_false_iff.mp (Bool.eq_false_of_not_eq_true distinct), ?_⟩
      cases tallied : tallyExpected env store records 0 0 with
      | error fault => simp [tallied] at verdict
      | ok counts =>
          obtain ⟨found, conflicting⟩ := counts
          obtain ⟨counted, total⟩ := tallyExpected_eq_ok tallied
          simp only [tallied] at verdict
          simp only [Prod.mk.injEq, Nat.zero_add] at counted
          split_ifs at verdict with conflict untouched partly
          · obtain rfl := Except.ok.inj verdict
            exact countExpected_eq_length_iff.mp (by omega)
          · obtain rfl := Except.ok.inj verdict
            refine ⟨?_, countExpected_eq_length_iff.mp (by omega)⟩
            rintro rfl
            exact untouched (by simpa [countExpected] using counted.1)

/-- The verdict that the batch is there: it is not empty, and each record of it matches. -/
theorem recoveryVerdict_eq_ok_true_iff {store : σ} {records : List GraphRecord} :
    recoveryVerdict env records store = .ok true ↔
      DistinctKeys env records ∧ records ≠ [] ∧ AllExpected env store records .matched := by
  refine ⟨of_recoveryVerdict_ok, fun ⟨distinct, nonempty, matched⟩ => ?_⟩
  obtain ⟨⟨found, conflicting⟩, tallied⟩ := tallyExpected_of_allExpected matched 0 0
  obtain ⟨counted, total⟩ := tallyExpected_eq_ok tallied
  have all := countExpected_eq_length_iff.mpr matched
  have positive := List.length_pos_of_ne_nil nonempty
  simp only [Prod.mk.injEq, Nat.zero_add] at counted
  simp only [recoveryVerdict, unrecoverableKeys_eq_false_iff.mpr distinct, tallied,
    Bool.false_eq_true, if_false]
  rw [if_neg (by omega), if_neg (by omega), if_neg (by omega)]

/-- The verdict that none of the batch is there. -/
theorem recoveryVerdict_eq_ok_false_iff {store : σ} {records : List GraphRecord} :
    recoveryVerdict env records store = .ok false ↔
      DistinctKeys env records ∧ AllExpected env store records .missing := by
  refine ⟨of_recoveryVerdict_ok, fun ⟨distinct, missing⟩ => ?_⟩
  obtain ⟨⟨found, conflicting⟩, tallied⟩ := tallyExpected_of_allExpected missing 0 0
  obtain ⟨counted, total⟩ := tallyExpected_eq_ok tallied
  have all := countExpected_eq_length_iff.mpr missing
  simp only [Prod.mk.injEq, Nat.zero_add] at counted
  simp only [recoveryVerdict, unrecoverableKeys_eq_false_iff.mpr distinct, tallied,
    Bool.false_eq_true, if_false]
  rw [if_neg (by omega), if_pos (by omega)]

/-! ## One attempt -/

/-- The store holds the whole batch: as the receipt names it, or as the records validate
against the store. -/
def Whole (env : WriteEnv σ) (command : WriteCommand) (pendingRecordIds : List String)
    (store : σ) : Prop :=
  allMatched env command pendingRecordIds store = true ∨
    ∃ records, allRecords env command store = .ok records ∧ DistinctKeys env records ∧
      records ≠ [] ∧ AllExpected env store records .matched

/-- The store holds none of the batch that the records validate to. -/
structure Untouched (env : WriteEnv σ) (command : WriteCommand) (pendingRecordIds : List String)
    (store : σ) (records : List GraphRecord) : Prop where
  unmatched : allMatched env command pendingRecordIds store = false
  validated : allRecords env command store = .ok records
  distinct : DistinctKeys env records
  missing : AllExpected env store records .missing

/-- The store after the batch. -/
def storeAfter (env : WriteEnv σ) (command : WriteCommand) (records : List GraphRecord)
    (store : σ) : σ :=
  (ingestRecordsWithPolicy env.toGraphSink env.json records store
    command.danglingCitationPolicy).1

/-- The stores after the commits of the batch. -/
def stages (env : WriteEnv σ) (command : WriteCommand) (records : List GraphRecord)
    (store : σ) : List σ :=
  ingestCommits env records store command.danglingCitationPolicy

/-- The last of two runs of commits is that of the second, if it has any. -/
theorem getLastD_append (earlier later : List σ) (store : σ) :
    (earlier ++ later).getLastD store = later.getLastD (earlier.getLastD store) := by
  cases later with
  | nil => simp
  | cons head rest => simp [List.getLastD_eq_getLast?, List.getLast?_append]

/-- A run of records ends with its last commit. -/
theorem writeRun_fst (store : σ) (report : IngestReport) (run : List GraphRecord) :
    (writeRun env.toGraphSink store report run).1 = (runCommits env store run).getLastD store := by
  cases run with
  | nil => rfl
  | cons record rest => rfl

/-- So do the runs between quarantined records. -/
theorem writeAndTally_fst {quarantined : StrSet} {diagnostics : StrMap String}
    (records run : List GraphRecord) (store : σ) (report : IngestReport) :
    (writeAndTally env.toGraphSink quarantined diagnostics records run store report).1 =
      (writeCommits env quarantined records run store).getLastD store := by
  induction records generalizing run store report with
  | nil => exact writeRun_fst store report run
  | cons record rest ih =>
      rw [writeAndTally, writeCommits]
      split
      · rw [getLastD_append, ← writeRun_fst store report run]
        exact ih ..
      · exact ih ..

/-- The store after the batch is the one after its last commit. -/
theorem getLastD_stages (records : List GraphRecord) (store : σ) :
    (stages env command records store).getLastD store = storeAfter env command records store := by
  rw [stages, storeAfter]
  cases command.danglingCitationPolicy with
  | quarantine => exact (writeAndTally_fst ..).symm
  | rejectBatch =>
      rw [ingestCommits, ingestRecordsWithPolicy]
      dsimp only
      cases (quarantine (storeHasNode env.toGraphSink store) records env.json).1.min? with
      | none => exact (writeAndTally_fst ..).symm
      | some firstCiter => rfl

/-- It is the store before the batch or one of its stages. -/
theorem storeAfter_mem (records : List GraphRecord) (store : σ) :
    storeAfter env command records store = store ∨
      storeAfter env command records store ∈ stages env command records store := by
  rw [← getLastD_stages]
  exact List.mem_cons.mp List.getLastD_mem_cons

section Attempt

variable {state : DaemonState σ}

/-- The state with a receipt for the command. -/
def DaemonState.receipted (state : DaemonState σ) (command : WriteCommand)
    (entry : IdempotencyEntry) : DaemonState σ :=
  { state with entries := state.entries.insert command.idempotencyKey entry }

/-- The state with another store. -/
def DaemonState.stored (state : DaemonState σ) (store : σ) : DaemonState σ :=
  { state with store := store }

/-- An ingest makes each of its commits durable, and then the receipt. -/
theorem run_ingestAndComplete (records : List GraphRecord) :
    ∃ response, ingestAndComplete env command records state =
      ((stages env command records state.store).map state.stored ++
        [(state.stored (storeAfter env command records state.store)).receipted command
          (.committed command.payloadHash response)], .ok response) := by
  refine ⟨.fromReport (ingestRecordsWithPolicy env.toGraphSink env.json records state.store
    command.danglingCitationPolicy).2 (records.map GraphRecord.id) false, ?_⟩
  have last : ((stages env command records state.store).map state.stored).getLastD state =
      state.stored (storeAfter env command records state.store) := by
    rw [← getLastD_stages]
    exact List.getLastD_map
  rw [ingestAndComplete, Durable.run_state_bind]
  simp only [completeIdempotencyEntry, setEntryDurably, Durable.run_through_bind,
    Durable.run_modify_bind, Durable.run_pure]
  rw [← last]
  rfl

/-- A first attempt makes its receipt durable before all else. -/
theorem run_validateAndWrite_unseen {records : List GraphRecord}
    (validated : allRecords env command state.store = .ok records) :
    ∃ begun response, begun = state.receipted command
        (.pending command.payloadHash (records.map GraphRecord.id) command.records) ∧
      validateAndWrite env command false state =
        (begun :: ((stages env command records state.store).map begun.stored ++
          [(begun.stored (storeAfter env command records state.store)).receipted command
            (.committed command.payloadHash response)]), .ok response) := by
  let begun := state.receipted command
    (.pending command.payloadHash (records.map GraphRecord.id) command.records)
  obtain ⟨response, ran⟩ : ∃ response, ingestAndComplete env command records begun =
      ((stages env command records begun.store).map begun.stored ++
        [(begun.stored (storeAfter env command records begun.store)).receipted command
          (.committed command.payloadHash response)], .ok response) :=
    run_ingestAndComplete records
  refine ⟨begun, response, rfl, ?_⟩
  rw [validateAndWrite, Durable.run_state_bind, validated, Durable.run_ok_bind]
  simp only [Bool.false_eq_true, if_false, setEntryDurably, Durable.run_modify_bind]
  exact congrArg (fun trail => (_ :: trail.1, trail.2)) ran

variable (keys : validateUniqueRecoveryKeys env command.records = .ok ())

include keys in

/-- Without a receipt the write is validated and tried. -/
theorem run_applyWrite_unseen (unseen : state.entries[command.idempotencyKey]? = none) :
    applyWrite env command state = validateAndWrite env command false state := by
  rw [applyWrite, keys, Durable.run_ok_bind, Durable.run_state_bind, unseen]

include keys in

/-- A committed receipt of the same payload is answered again, and nothing is written. -/
theorem run_applyWrite_committed {response : DaemonIngestResponse}
    (receipt : state.entries[command.idempotencyKey]? =
      some (.committed command.payloadHash response)) :
    applyWrite env command state = ([], .ok { response with idempotent := true }) := by
  rw [applyWrite, keys, Durable.run_ok_bind, Durable.run_state_bind, receipt]
  simp [IdempotencyEntry.payloadHash, Durable.run_pure]

variable {pendingRecordIds : List String} {sent : List GraphRecord}
  (receipt : state.entries[command.idempotencyKey]? =
    some (.pending command.payloadHash pendingRecordIds sent))

include keys receipt in

/-- A pending receipt whose records are all in the store is committed. -/
theorem run_applyWrite_matched
    (found : allMatched env command pendingRecordIds state.store = true) :
    applyWrite env command state =
      ([state.receipted command
        (.committed command.payloadHash (recoveredResponse pendingRecordIds true))],
        .ok (recoveredResponse pendingRecordIds true)) := by
  have recovered : recoverPendingWritePreValidation env command state =
      ([state.receipted command
        (.committed command.payloadHash (recoveredResponse pendingRecordIds true))],
        .ok (some (recoveredResponse pendingRecordIds true))) := by
    rw [recoverPendingWritePreValidation, Durable.run_state_bind, receipt]
    simp only [found, if_true, completeIdempotencyEntry, setEntryDurably, Durable.run_modify_bind]
    rfl
  rw [applyWrite, keys, Durable.run_ok_bind, Durable.run_state_bind, receipt]
  have same : ¬ (IdempotencyEntry.pending command.payloadHash pendingRecordIds sent).payloadHash ≠
      command.payloadHash := not_not_intro rfl
  dsimp only
  rw [if_neg same, Durable.run_bind_of_ok _ recovered]
  simp [Durable.run_pure]

include keys receipt in

/-- Any other pending receipt is tried again. -/
theorem run_applyWrite_unmatched
    (unmatched : allMatched env command pendingRecordIds state.store = false) :
    applyWrite env command state = validateAndWrite env command true state := by
  have nothing : recoverPendingWritePreValidation env command state = ([], .ok none) := by
    rw [recoverPendingWritePreValidation, Durable.run_state_bind, receipt]
    simp [unmatched, Durable.run_pure]
  rw [applyWrite, keys, Durable.run_ok_bind, Durable.run_state_bind, receipt]
  have same : ¬ (IdempotencyEntry.pending command.payloadHash pendingRecordIds sent).payloadHash ≠
      command.payloadHash := not_not_intro rfl
  dsimp only
  rw [if_neg same, Durable.run_bind_of_ok _ nothing]
  simp

omit keys receipt in

/-- An invalid payload changes nothing. -/
theorem run_validateAndWrite_invalid {fault : ApiError} (isPending : Bool)
    (invalid : allRecords env command state.store = .error fault) :
    validateAndWrite env command isPending state = ([], .error fault) := by
  rw [validateAndWrite, Durable.run_state_bind, invalid, Durable.run_error_bind]

omit keys receipt in

/-- A retry goes by the verdict on what the store holds. -/
theorem run_validateAndWrite_pending {records : List GraphRecord}
    (validated : allRecords env command state.store = .ok records) :
    validateAndWrite env command true state =
      match recoveryVerdict env records state.store with
      | .error fault => ([], .error fault)
      | .ok true =>
          ([state.receipted command (.committed command.payloadHash
            (recoveredResponse (records.map GraphRecord.id) false))],
            .ok (recoveredResponse (records.map GraphRecord.id) true))
      | .ok false => ingestAndComplete env command records state := by
  rw [validateAndWrite, Durable.run_state_bind, validated, Durable.run_ok_bind]
  simp only [if_true]
  cases verdict : recoveryVerdict env records state.store with
  | error fault =>
      have refused : recoverPendingWrite env command records state = ([], .error fault) := by
        rw [recoverPendingWrite, Durable.run_state_bind, verdict, Durable.run_error_bind]
      rw [Durable.run_bind_of_error _ refused]
  | ok whole =>
      cases whole with
      | true =>
          have recovered : recoverPendingWrite env command records state =
              ([state.receipted command (.committed command.payloadHash
                (recoveredResponse (records.map GraphRecord.id) false))],
                .ok (some (recoveredResponse (records.map GraphRecord.id) true))) := by
            rw [recoverPendingWrite, Durable.run_state_bind, verdict, Durable.run_ok_bind]
            simp only [if_true, completeIdempotencyEntry, setEntryDurably,
              Durable.run_modify_bind]
            rfl
          rw [Durable.run_bind_of_ok _ recovered]
          simp [Durable.run_pure]
      | false =>
          have nothing : recoverPendingWrite env command records state = ([], .ok none) := by
            rw [recoverPendingWrite, Durable.run_state_bind, verdict, Durable.run_ok_bind]
            simp [Durable.run_pure]
          rw [Durable.run_bind_of_ok _ nothing]
          simp

include keys receipt in
/-- A retry that finds the whole batch only receipts it. -/
theorem run_applyWrite_whole (whole : Whole env command pendingRecordIds state.store) :
    ∃ receipted response, applyWrite env command state =
      ([state.receipted command (.committed command.payloadHash receipted)], .ok response) := by
  by_cases found : allMatched env command pendingRecordIds state.store = true
  · exact ⟨_, _, run_applyWrite_matched keys receipt found⟩
  · obtain ⟨records, validated, distinct, nonempty, present⟩ := whole.resolve_left found
    rw [run_applyWrite_unmatched keys receipt (by simpa using found),
      run_validateAndWrite_pending validated,
      recoveryVerdict_eq_ok_true_iff.mpr ⟨distinct, nonempty, present⟩]
    exact ⟨_, _, rfl⟩

include keys receipt in
/-- A retry that finds none of the batch writes it. -/
theorem run_applyWrite_untouched {records : List GraphRecord}
    (untouched : Untouched env command pendingRecordIds state.store records) :
    ∃ response, applyWrite env command state =
      ((stages env command records state.store).map state.stored ++
        [(state.stored (storeAfter env command records state.store)).receipted command
          (.committed command.payloadHash response)], .ok response) := by
  rw [run_applyWrite_unmatched keys receipt untouched.unmatched,
    run_validateAndWrite_pending untouched.validated,
    recoveryVerdict_eq_ok_false_iff.mpr ⟨untouched.distinct, untouched.missing⟩]
  exact run_ingestAndComplete records

include keys receipt in
/-- Any other retry of a pending write is refused before it does anything. -/
theorem run_applyWrite_unclear (unfinished : ¬ Whole env command pendingRecordIds state.store)
    (begun : ∀ records, ¬ Untouched env command pendingRecordIds state.store records) :
    ∃ fault, applyWrite env command state = ([], .error fault) := by
  have unmatched : allMatched env command pendingRecordIds state.store = false :=
    Bool.eq_false_iff.mpr fun found => unfinished (.inl found)
  rw [run_applyWrite_unmatched keys receipt unmatched]
  cases validated : allRecords env command state.store with
  | error fault => exact ⟨fault, run_validateAndWrite_invalid true validated⟩
  | ok records =>
      rw [run_validateAndWrite_pending validated]
      cases verdict : recoveryVerdict env records state.store with
      | error fault => exact ⟨fault, rfl⟩
      | ok present =>
          cases present with
          | true =>
              obtain ⟨distinct, nonempty, present⟩ := recoveryVerdict_eq_ok_true_iff.mp verdict
              exact absurd (.inr ⟨records, validated, distinct, nonempty, present⟩) unfinished
          | false =>
              obtain ⟨distinct, missing⟩ := recoveryVerdict_eq_ok_false_iff.mp verdict
              exact absurd ⟨unmatched, validated, distinct, missing⟩ (begun records)

end Attempt

/-! ## Runs -/

section Runs

variable {start left : DaemonState σ} {records : List GraphRecord}

/-- The states left behind by attempts that write `records` first: `pendingStores` are the
stores under a pending receipt, and `doneStores` those under a committed one. -/
inductive Reached (command : WriteCommand) (start : DaemonState σ) (records : List GraphRecord)
    (pendingStores doneStores : σ → Prop) : DaemonState σ → Prop
  | unseen : Reached command start records pendingStores doneStores start
  | pending {left : DaemonState σ} (store : pendingStores left.store)
      (receipt : left.entries[command.idempotencyKey]? = some (.pending command.payloadHash
        (records.map GraphRecord.id) command.records)) :
      Reached command start records pendingStores doneStores left
  | committed {left : DaemonState σ} {response : DaemonIngestResponse}
      (store : doneStores left.store)
      (receipt : left.entries[command.idempotencyKey]? =
        some (.committed command.payloadHash response)) :
      Reached command start records pendingStores doneStores left

/-- What the stores must satisfy for an attempt to stay among them. -/
structure Closed (env : WriteEnv σ) (command : WriteCommand) (start : σ)
    (records : List GraphRecord) (pendingStores doneStores : σ → Prop) : Prop where
  announced : pendingStores start
  first : ∀ stage ∈ stages env command records start, pendingStores stage
  firstDone : doneStores (storeAfter env command records start)
  whole : ∀ store, pendingStores store → Whole env command (records.map GraphRecord.id) store →
    doneStores store
  again : ∀ store, pendingStores store → ∀ later,
    Untouched env command (records.map GraphRecord.id) store later →
      (∀ stage ∈ stages env command later store, pendingStores stage) ∧
        doneStores (storeAfter env command later store)

/-- A receipt is found under the key of its command. -/
@[simp]
theorem DaemonState.receipted_entries (state : DaemonState σ) (entry : IdempotencyEntry) :
    (state.receipted command entry).entries[command.idempotencyKey]? = some entry := by
  simp [DaemonState.receipted]

/-- Every attempt stays among the reached states. -/
theorem Reached.attempts {pendingStores doneStores : σ → Prop}
    (keys : validateUniqueRecoveryKeys env command.records = .ok ())
    (unseen : start.entries[command.idempotencyKey]? = none)
    (validated : allRecords env command start.store = .ok records)
    (closed : Closed env command start.store records pendingStores doneStores)
    (attempts : (applyWrite env command).Attempts start left) :
    Reached command start records pendingStores doneStores left := by
  refine attempts.invariant .unseen fun state reached later member => ?_
  cases reached with
  | unseen =>
      obtain ⟨begun, response, rfl, ran⟩ := run_validateAndWrite_unseen validated
      rw [run_applyWrite_unseen keys unseen, ran] at member
      simp only [List.mem_cons, List.mem_append, List.mem_map, List.not_mem_nil, or_false] at member
      obtain rfl | ⟨stage, isStage, rfl⟩ | rfl := member
      · exact .pending closed.announced (by simp)
      · exact .pending (closed.first stage isStage) (by simp [DaemonState.stored])
      · exact .committed closed.firstDone (DaemonState.receipted_entries _ _)
  | pending store receipt =>
      by_cases whole : Whole env command (records.map GraphRecord.id) state.store
      · obtain ⟨receipted, response, ran⟩ := run_applyWrite_whole keys receipt whole
        rw [ran, List.mem_singleton] at member
        subst member
        exact .committed (closed.whole _ store whole) (DaemonState.receipted_entries _ _)
      · by_cases none : ∀ later, ¬ Untouched env command (records.map GraphRecord.id)
            state.store later
        · obtain ⟨fault, ran⟩ := run_applyWrite_unclear keys receipt whole none
          rw [ran] at member
          exact absurd member List.not_mem_nil
        · obtain ⟨again, untouched⟩ := not_forall_not.mp none
          obtain ⟨response, ran⟩ := run_applyWrite_untouched keys receipt untouched
          obtain ⟨pending, done⟩ := closed.again _ store again untouched
          rw [ran] at member
          simp only [List.mem_append, List.mem_map, List.mem_cons, List.not_mem_nil,
            or_false] at member
          obtain ⟨stage, isStage, rfl⟩ | rfl := member
          · exact .pending (pending stage isStage) receipt
          · exact .committed done (DaemonState.receipted_entries _ _)
  | committed store receipt =>
      rw [run_applyWrite_committed keys receipt] at member
      exact absurd member List.not_mem_nil

/-- A pending receipt whose batch the store holds neither whole nor not at all. -/
def Unclear (env : WriteEnv σ) (command : WriteCommand) (state : DaemonState σ) : Prop :=
  ∃ payloadHash pendingRecordIds sent,
    state.entries[command.idempotencyKey]? = some (.pending payloadHash pendingRecordIds sent) ∧
      ¬ Whole env command pendingRecordIds state.store ∧
      ∀ records, ¬ Untouched env command pendingRecordIds state.store records

/-- Every stage but the initial store shows that the batch was begun. -/
def Traced (env : WriteEnv σ) (command : WriteCommand) (records : List GraphRecord)
    (start : σ) : Prop :=
  ∀ stage ∈ stages env command records start,
    stage = start ∨ ∀ later, ¬ Untouched env command (records.map GraphRecord.id) stage later

/-- The store held none of the batch, or nothing that its write changes, and holds all of it
afterwards. -/
structure Settles (env : WriteEnv σ) (command : WriteCommand) (records : List GraphRecord)
    (start finished : σ) : Prop where
  before : Untouched env command (records.map GraphRecord.id) start records ∨
    Whole env command (records.map GraphRecord.id) start ∧ finished = start
  after : Whole env command (records.map GraphRecord.id) finished

/-- The retry succeeds and leaves this store. -/
def Completes (env : WriteEnv σ) (command : WriteCommand) (left : DaemonState σ)
    (store : σ) : Prop :=
  (∃ response, (applyWrite env command left).2 = .ok response) ∧
    ((applyWrite env command).final left).store = store

/-- What a retry does in a state that attempts have left behind. -/
structure RetryOutcome (env : WriteEnv σ) (command : WriteCommand) (records : List GraphRecord)
    (start finished left : DaemonState σ) : Prop where
  /-- It is refused where the store leaves open what became of the batch. -/
  refused_iff : (∃ fault, (applyWrite env command left).2 = .error fault) ↔
    Unclear env command left
  /-- A refused retry changes neither the store nor a receipt. -/
  refused_unchanged : Unclear env command left → (applyWrite env command left).1 = []
  /-- The commits of the batch are made at most once, if they leave a trace. -/
  atMostOnce : Traced env command records start.store →
    left.store = start.store ∨ left.store ∈ stages env command records start.store
  /-- Where none of the commits was made, or all of them were, the batch is written exactly once. -/
  exactlyOnce : Traced env command records start.store →
    Settles env command records start.store finished.store →
      left.store = start.store ∨ left.store = finished.store →
        Completes env command left finished.store
  /-- So is a batch of one commit, at every crash point. -/
  oneCommit : (∀ stage ∈ stages env command records start.store,
      stage = start.store ∨ stage = finished.store) →
    Settles env command records start.store finished.store →
      Completes env command left finished.store
  /-- A command with the same key and another payload changes nothing. -/
  foreign : ∀ other : WriteCommand, other.idempotencyKey = command.idempotencyKey →
    ∀ entry, left.entries[command.idempotencyKey]? = some entry →
      entry.payloadHash ≠ other.payloadHash → (applyWrite env other left).1 = []

/-- A batch that is stored as a whole is not untouched. -/
theorem Whole.not_untouched {pendingRecordIds : List String} {store : σ}
    (whole : Whole env command pendingRecordIds store) (later : List GraphRecord) :
    ¬ Untouched env command pendingRecordIds store later := by
  intro untouched
  obtain found | ⟨records, validated, -, nonempty, present⟩ := whole
  · simp [untouched.unmatched] at found
  · obtain rfl : records = later := Except.ok.inj (validated.symm.trans untouched.validated)
    obtain ⟨record, member⟩ := List.exists_mem_of_ne_nil _ nonempty
    have conflict := (present record member).symm.trans (untouched.missing record member)
    simp at conflict

/-- A first attempt that succeeds has valid records, and writes them. -/
theorem applyWrite_unseen_eq_ok {response : DaemonIngestResponse}
    (unseen : start.entries[command.idempotencyKey]? = none)
    (ran : (applyWrite env command start).2 = .ok response) :
    validateUniqueRecoveryKeys env command.records = .ok () ∧
      ∃ records, allRecords env command start.store = .ok records ∧
        ((applyWrite env command).final start).store = storeAfter env command records start.store := by
  have keys : validateUniqueRecoveryKeys env command.records = .ok () := by
    cases checked : validateUniqueRecoveryKeys env command.records with
    | ok _ => rfl
    | error fault => simp [applyWrite, checked, Durable.run_error_bind] at ran
  refine ⟨keys, ?_⟩
  cases validated : allRecords env command start.store with
  | error fault =>
      rw [run_applyWrite_unseen keys unseen, run_validateAndWrite_invalid false validated] at ran
      simp at ran
  | ok records =>
      obtain ⟨begun, response, rfl, written⟩ := run_validateAndWrite_unseen validated
      refine ⟨records, rfl, ?_⟩
      rw [Durable.final, run_applyWrite_unseen keys unseen, written, ← List.cons_append,
        List.getLastD_concat]
      rfl

/-- A key with another payload changes nothing. -/
theorem applyWrite_foreign {state : DaemonState σ} {entry : IdempotencyEntry}
    (seen : state.entries[command.idempotencyKey]? = some entry)
    (foreign : entry.payloadHash ≠ command.payloadHash) : (applyWrite env command state).1 = [] := by
  cases checked : validateUniqueRecoveryKeys env command.records with
  | error fault => rw [applyWrite, checked, Durable.run_error_bind]
  | ok _ =>
      rw [applyWrite, checked, Durable.run_ok_bind, Durable.run_state_bind, seen]
      dsimp only
      rw [if_pos foreign]
      rfl

section Outcome

variable (keys : validateUniqueRecoveryKeys env command.records = .ok ())

include keys in

/-- A retry is refused exactly when the store is in neither of the clear states, and then it changes
nothing. -/
theorem refused_iff_unclear {response : DaemonIngestResponse}
    (unseen : start.entries[command.idempotencyKey]? = none)
    (ran : (applyWrite env command start).2 = .ok response)
    (reached : Reached command start records (fun _ => True) (fun _ => True) left) :
    ((∃ fault, (applyWrite env command left).2 = .error fault) ↔ Unclear env command left) ∧
      (Unclear env command left → (applyWrite env command left).1 = []) := by
  cases reached with
  | unseen => simp [Unclear, unseen, ran]
  | committed _ receipt => simp [Unclear, receipt, run_applyWrite_committed keys receipt]
  | pending _ receipt =>
      by_cases unclear : Unclear env command left
      · obtain ⟨payloadHash, pendingRecordIds, sent, found, unfinished, begun⟩ := unclear
        obtain ⟨-, rfl, -⟩ : _ ∧ _ ∧ _ := by simpa using receipt.symm.trans found
        obtain ⟨fault, refused⟩ := run_applyWrite_unclear keys receipt unfinished begun
        rw [refused]
        exact ⟨iff_of_true ⟨fault, rfl⟩ ⟨_, _, _, receipt, unfinished, begun⟩, fun _ => rfl⟩
      · refine ⟨iff_of_false ?_ unclear, fun unclear' => absurd unclear' unclear⟩
        by_cases whole : Whole env command (records.map GraphRecord.id) left.store
        · obtain ⟨receipted, response, ran⟩ := run_applyWrite_whole keys receipt whole
          simp [ran]
        · have some_ : ∃ later, Untouched env command (records.map GraphRecord.id) left.store
              later := by
            by_contra none
            exact unclear ⟨_, _, _, receipt, whole, not_exists.mp none⟩
          obtain ⟨later, untouched⟩ := some_
          obtain ⟨response, ran⟩ := run_applyWrite_untouched keys receipt untouched
          simp [ran]

/-- The stores of a run whose commits leave a trace: they are made once, and what is receipted is
finished or was found whole. -/
theorem closed_traced {store : σ} (validated : allRecords env command store = .ok records)
    (traced : Traced env command records store) :
    Closed env command store records
      (fun other => other = store ∨ other ∈ stages env command records store)
      (fun other => other = storeAfter env command records store ∨
        (other = store ∨ other ∈ stages env command records store) ∧
          Whole env command (records.map GraphRecord.id) other) where
  announced := .inl rfl
  first := fun _ isStage => .inr isStage
  firstDone := .inl rfl
  whole := fun _ either whole => .inr ⟨either, whole⟩
  again := by
    intro other either later untouched
    obtain rfl : other = store := either.elim id fun isStage =>
      (traced other isStage).resolve_right fun begun => begun later untouched
    obtain rfl := Except.ok.inj (validated.symm.trans untouched.validated)
    exact ⟨fun _ isStage => .inr isStage, .inl rfl⟩

include keys in
/-- From none or all of the commits, the retry completes the store. -/
theorem completes_of_traced (unseen : start.entries[command.idempotencyKey]? = none)
    (validated : allRecords env command start.store = .ok records)
    (traced : Traced env command records start.store)
    (settles : Settles env command records start.store
      (storeAfter env command records start.store))
    (attempts : (applyWrite env command).Attempts start left)
    (either : left.store = start.store ∨
      left.store = storeAfter env command records start.store) :
    Completes env command left (storeAfter env command records start.store) := by
  -- A store that holds the whole batch is the finished one.
  have complete (whole : Whole env command (records.map GraphRecord.id) left.store) :
      left.store = storeAfter env command records start.store := by
    rcases either with same | same
    · rcases settles.before with untouched | ⟨-, unchanged⟩
      · exact absurd untouched ((same ▸ whole).not_untouched records)
      · exact same.trans unchanged.symm
    · exact same
  cases Reached.attempts keys unseen validated (closed_traced validated traced) attempts with
  | unseen =>
      obtain ⟨begun, response, rfl, ran⟩ := run_validateAndWrite_unseen validated
      rw [Completes, Durable.final, run_applyWrite_unseen keys unseen, ran, ← List.cons_append,
        List.getLastD_concat]
      exact ⟨⟨response, rfl⟩, rfl⟩
  | committed done receipt =>
      rw [Completes, Durable.final, run_applyWrite_committed keys receipt]
      exact ⟨⟨_, rfl⟩, done.elim id fun found => complete found.2⟩
  | pending _ receipt =>
      by_cases whole : Whole env command (records.map GraphRecord.id) left.store
      · obtain ⟨receipted, response, ran⟩ := run_applyWrite_whole keys receipt whole
        rw [Completes, Durable.final, ran]
        exact ⟨⟨response, rfl⟩, complete whole⟩
      · obtain same | same := either
        · have untouched : Untouched env command (records.map GraphRecord.id) left.store
              records := by
            rw [same] at whole ⊢
            exact settles.before.resolve_right fun found => whole found.1
          obtain ⟨response, ran⟩ := run_applyWrite_untouched keys receipt untouched
          rw [Completes, Durable.final, ran, List.getLastD_concat, same]
          exact ⟨⟨response, rfl⟩, rfl⟩
        · exact absurd (same ▸ settles.after) whole

/-- A batch of one commit leaves a trace. -/
theorem traced_of_oneCommit {store finished : σ}
    (single : ∀ stage ∈ stages env command records store, stage = store ∨ stage = finished)
    (settles : Settles env command records store finished) :
    Traced env command records store := by
  intro stage isStage
  refine (single stage isStage).imp_right ?_
  rintro rfl later untouched
  exact settles.after.not_untouched later untouched

end Outcome

/-- The retries of a write, over all crash points and any number of earlier attempts. -/
theorem applyWrite_retryOutcome (env : WriteEnv σ) (command : WriteCommand)
    {start left : DaemonState σ} {response : DaemonIngestResponse}
    (unseen : start.entries[command.idempotencyKey]? = none)
    (ran : (applyWrite env command start).2 = .ok response)
    (attempts : (applyWrite env command).Attempts start left) :
    ∃ records, allRecords env command start.store = .ok records ∧
      RetryOutcome env command records start ((applyWrite env command).final start) left := by
  obtain ⟨keys, records, validated, finished⟩ := applyWrite_unseen_eq_ok unseen ran
  have always : Closed env command start.store records (fun _ => True) (fun _ => True) :=
    ⟨trivial, fun _ _ => trivial, trivial, fun _ _ _ => trivial,
      fun _ _ _ _ => ⟨fun _ _ => trivial, trivial⟩⟩
  obtain ⟨refused, unchanged⟩ := refused_iff_unclear keys unseen ran
    (Reached.attempts keys unseen validated always attempts)
  have atMostOnce (traced : Traced env command records start.store) :
      left.store = start.store ∨ left.store ∈ stages env command records start.store := by
    cases Reached.attempts keys unseen validated (closed_traced validated traced) attempts with
    | unseen => exact .inl rfl
    | pending either _ => exact either
    | committed done _ =>
        rcases done with finished | ⟨either, -⟩
        · exact finished ▸ storeAfter_mem records start.store
        · exact either
  refine ⟨records, validated, refused, unchanged, atMostOnce, ?_, ?_, ?_⟩
  · rw [finished]
    exact fun traced settles => completes_of_traced keys unseen validated traced settles attempts
  · rw [finished]
    intro single settles
    have traced := traced_of_oneCommit single settles
    refine completes_of_traced keys unseen validated traced settles attempts ?_
    exact (atMostOnce traced).elim .inl (single left.store)
  · intro other sameKey entry seen foreign
    exact applyWrite_foreign (sameKey ▸ seen) foreign

end Runs

/-! ## The embedded store -/

/-- The embedded sink behind a daemon, for records whose validation adds nothing. -/
def embeddedEnv (aletheia : Aletheia) : WriteEnv EmbeddedAletheiaSink where
  readBack sink := sink.readBack aletheia
  writeRecords sink records :=
    let run := sink.writeRecordsBulk aletheia true EmbeddedAletheiaSink.defaultBulkBatchSize records
    (run.trail, run.results)
  expectedRecordState sink := sink.expectedRecordState aletheia
  payloadDigest _ := ""
  json _ := ""
  validate _ _ := .ok ([], [])

/-- An ingest leaves the embedded store as its bulk writes do: the stores after the commits that a
crash may keep end with the sink that the run hands back. -/
theorem embeddedEnv_writes (aletheia : Aletheia) (sink : EmbeddedAletheiaSink)
    (records : List GraphRecord) :
    ((embeddedEnv aletheia).toGraphSink.writeAndVerifyRecords sink records).1 =
      (sink.writeRecordsBulk aletheia true EmbeddedAletheiaSink.defaultBulkBatchSize
        records).sink := by
  have settled := sink.writeRecordsBulk_settled aletheia true
    EmbeddedAletheiaSink.defaultBulkBatchSize records
  exact settled

def sameIdNode (summary : String) : GraphRecord :=
  .node { id := "codegraph:v3:same-id-node", kind := .repository, schemaVersion := 1,
          name := some "repo", summary := summary }

/-- A daemon with an empty store. -/
def emptyDaemon : DaemonState EmbeddedAletheiaSink where
  store := {}
  entries := ∅

/-- A node and its tombstone, which are committed one after the other. -/
def retractedNode : WriteCommand where
  idempotencyKey := "retracted"
  payloadHash := "hash"
  records := [sameIdNode "old", .tombstone
    { id := "codegraph:v3:tombstone", schemaVersion := 1, deletedId := "codegraph:v3:same-id-node" }]
  danglingCitationPolicy := .quarantine

/-- What a retry does after a crash between the two commits: it is refused. -/
theorem retractedNode_retryOutcome :
    ∃ left, (applyWrite (embeddedEnv EmbeddedAletheiaSink.sampleAletheia) retractedNode).Attempts
        emptyDaemon left ∧
      left.store.db.length = 1 ∧
      (applyWrite (embeddedEnv EmbeddedAletheiaSink.sampleAletheia) retractedNode left).2.isOk =
        false ∧
      ∃ records, allRecords (embeddedEnv EmbeddedAletheiaSink.sampleAletheia) retractedNode
          emptyDaemon.store = .ok records ∧
        RetryOutcome (embeddedEnv EmbeddedAletheiaSink.sampleAletheia) retractedNode records
          emptyDaemon ((applyWrite (embeddedEnv EmbeddedAletheiaSink.sampleAletheia)
            retractedNode).final emptyDaemon) left := by
  have halfway : ((applyWrite (embeddedEnv EmbeddedAletheiaSink.sampleAletheia) retractedNode
        emptyDaemon).1.any fun left => left.store.db.length = 1 &&
          !(applyWrite (embeddedEnv EmbeddedAletheiaSink.sampleAletheia) retractedNode left).2.isOk) =
        true ∧
      (applyWrite (embeddedEnv EmbeddedAletheiaSink.sampleAletheia) retractedNode
        emptyDaemon).2.isOk = true := by
    decide +kernel
  obtain ⟨partly, ran⟩ := halfway
  obtain ⟨left, member, stored⟩ := List.any_eq_true.mp partly
  simp only [Bool.and_eq_true, decide_eq_true_eq, Bool.not_eq_true'] at stored
  cases result : (applyWrite (embeddedEnv EmbeddedAletheiaSink.sampleAletheia) retractedNode
      emptyDaemon).2 with
  | error fault => simp [result, Except.isOk, Except.toBool] at ran
  | ok response =>
      exact ⟨left, .single member, stored.1, stored.2,
        applyWrite_retryOutcome _ _ rfl result (.single member)⟩

/-! ## An update of a stored record -/

/-- A daemon whose store holds the record with its old summary. -/
def sameIdStored : DaemonState EmbeddedAletheiaSink where
  store := (EmbeddedAletheiaSink.writeAll EmbeddedAletheiaSink.sampleAletheia {}
    [sameIdNode "old"]).getD {}
  entries := ∅

def sameIdUpdate : WriteCommand where
  idempotencyKey := "same-id-second"
  payloadHash := "new"
  records := [sameIdNode "new"]
  danglingCitationPolicy := .quarantine

/-- The update is written by an uninterrupted run. After a crash that leaves only its pending
receipt, every retry is refused and the old record stays. -/
theorem sameIdUpdate_refused :
    (applyWrite (embeddedEnv EmbeddedAletheiaSink.sampleAletheia) sameIdUpdate
        sameIdStored).2.isOk = true ∧
      ¬ ∀ left, (applyWrite (embeddedEnv EmbeddedAletheiaSink.sampleAletheia)
          sameIdUpdate).Attempts sameIdStored left →
        (applyWrite (embeddedEnv EmbeddedAletheiaSink.sampleAletheia) sameIdUpdate
          left).2.isOk = true := by
  refine ⟨by decide, fun retried => ?_⟩
  have refused : ((applyWrite (embeddedEnv EmbeddedAletheiaSink.sampleAletheia) sameIdUpdate
      sameIdStored).1.any fun left =>
        !(applyWrite (embeddedEnv EmbeddedAletheiaSink.sampleAletheia) sameIdUpdate left).2.isOk) =
      true := by
    decide
  obtain ⟨left, member, fails⟩ := List.any_eq_true.mp refused
  simp [retried left (Durable.Attempts.single member)] at fails

end Egregore
