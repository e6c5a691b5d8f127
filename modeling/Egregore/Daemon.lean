import Egregore.Adapters.Ingest
import Egregore.Base.Durable

/-!
# Daemon writes

`daemon.rs`: a write is announced by a pending receipt, applied to the store in one or more commits
and then receipted as committed. A write that finds its own pending receipt first works out from
the store what became of the earlier attempt. The store and the receipts are the durable state;
the store answers after a restart as before it (`openStore_answersAlike`). A receipt or an index
that cannot be written ends an attempt like a crash there.
-/

namespace Egregore

open Base

/-- `ErrorCode`, as far as a write raises it itself; the others come from its validation. -/
inductive ErrorCode where
  | idempotencyConflict | internalError
  | validation (code : String)
  deriving DecidableEq, Repr

/-- `ApiError`. -/
structure ApiError where
  code : ErrorCode
  message : String
  deriving DecidableEq, Repr

namespace ApiError

def conflict (message : String) : ApiError := ⟨.idempotencyConflict, message⟩

def internal (message : String) : ApiError := ⟨.internalError, message⟩

end ApiError

/-- `DaemonIngestResponse`. -/
structure DaemonIngestResponse where
  attempted : Nat
  succeeded : Nat
  failed : Nat
  failures : List IngestFailure
  recordIds : List String
  idempotent : Bool
  inserted : Nat
  unchanged : Nat
  deriving DecidableEq, Repr

/-- `from_report`. -/
def DaemonIngestResponse.fromReport (report : IngestReport) (recordIds : List String)
    (idempotent : Bool) : DaemonIngestResponse where
  attempted := report.attempted
  succeeded := report.succeeded
  failed := report.failed
  failures := report.failures
  recordIds := recordIds
  idempotent := idempotent
  inserted := report.inserted
  unchanged := report.unchanged

/-- `IdempotencyEntry`. -/
inductive IdempotencyEntry where
  | pending (payloadHash : String) (recordIds : List String) (records : List GraphRecord)
  | committed (payloadHash : String) (response : DaemonIngestResponse)
  deriving DecidableEq

def IdempotencyEntry.payloadHash : IdempotencyEntry → String
  | .pending payloadHash _ _ => payloadHash
  | .committed payloadHash _ => payloadHash

/-- `WriteCommand`. -/
structure WriteCommand where
  idempotencyKey : String
  payloadHash : String
  records : List GraphRecord
  danglingCitationPolicy : DanglingCitationPolicy

/-- What survives a crash: the store and the receipts. -/
structure DaemonState (σ : Type) where
  store : σ
  entries : StrMap IdempotencyEntry

/-- The sink a daemon owns, with the parts of the write that other modules decide: the digest of a
record's JSON, the JSON of a diagnostic, and the validation of a payload, which yields the edges it
synthesizes and the nodes it makes canonical. `writeRecords` is `write_and_verify_records`, with the
store after each of its commits. -/
structure WriteEnv (σ : Type) where
  readBack : σ → String → Except AdapterError (Option GraphRecord)
  writeRecords : σ → List GraphRecord → List σ × List (Except AdapterError WriteOutcome)
  expectedRecordState : σ → GraphRecord → Except AdapterError ExpectedRecordState
  payloadDigest : GraphRecord → String
  json : List (String × String) → String
  validate : σ → List GraphRecord → Except ApiError (List GraphRecord × List GraphRecord)

/-- The sink as an ingest uses it, to which only the last commit matters. -/
def WriteEnv.toGraphSink {σ : Type} (env : WriteEnv σ) : GraphSink σ where
  readBack := env.readBack
  writeAndVerifyRecords store records :=
    ((env.writeRecords store records).1.getLastD store, (env.writeRecords store records).2)

variable {σ : Type} (env : WriteEnv σ)

/-! ## Recovery keys -/

/-- `recovery_key`. -/
def recoveryKey (record : GraphRecord) : String :=
  match record with
  | .node node =>
      match node.temporal with
      | some temporal => "node\x00" ++ node.id ++ "\x00" ++ temporal.gitCommit
      | none => node.id
  | .tombstone tombstone => tombstone.id
  | .edge edge =>
      "edge\x00" ++ edge.id ++ "\x00" ++
        (edge.temporal.map TemporalMetadata.gitCommit).getD "" ++ "\x00" ++
        env.payloadDigest record

/-- `has_duplicate_recovery_keys`. -/
def hasDuplicateRecoveryKeys (records : List GraphRecord) : Bool :=
  !decide (records.map (recoveryKey env)).Nodup

/-- `has_ambiguous_recovery_keys`. -/
def hasAmbiguousRecoveryKeys : List GraphRecord → StrMap GraphRecord → Bool
  | [], _ => false
  | record :: rest, seen =>
      seen[recoveryKey env record]?.any (· ≠ record) ||
        hasAmbiguousRecoveryKeys rest (seen.insert (recoveryKey env record) record)

/-- The two checks, as every caller makes them. -/
def unrecoverableKeys (records : List GraphRecord) : Bool :=
  hasDuplicateRecoveryKeys env records || hasAmbiguousRecoveryKeys env records ∅

/-- `validate_unique_recovery_keys`. -/
def validateUniqueRecoveryKeys (records : List GraphRecord) : Except ApiError Unit :=
  if unrecoverableKeys env records then
    .error (.conflict "ingest payload has duplicate record IDs that are not idempotently recoverable")
  else .ok ()

/-! ## Receipts -/

/-- `set_entry_durably`. -/
def setEntryDurably {ε : Type} (key : String) (entry : IdempotencyEntry) :
    Durable (DaemonState σ) ε Unit :=
  Durable.modify fun state => { state with entries := state.entries.insert key entry }

/-- `complete_idempotency_entry`. -/
def completeIdempotencyEntry {ε : Type} (key payloadHash : String)
    (response : DaemonIngestResponse) : Durable (DaemonState σ) ε Unit :=
  setEntryDurably key (.committed payloadHash response)

/-- The response of a recovery that found every record in the store. -/
def recoveredResponse (recordIds : List String) (idempotent : Bool) : DaemonIngestResponse where
  attempted := recordIds.length
  succeeded := recordIds.length
  failed := 0
  failures := []
  recordIds := recordIds
  idempotent := idempotent
  inserted := 0
  unchanged := recordIds.length

/-! ## Recovery -/

/-- What a pending receipt names, read back from the store: the records as sent, and the
synthesized ones by their IDs. -/
def allMatched (command : WriteCommand) (pendingRecordIds : List String) (store : σ) : Bool :=
  (command.records.all fun record => env.expectedRecordState store record matches .ok .matched) &&
    (pendingRecordIds.filter fun id => !(command.records.map GraphRecord.id).contains id).all
      fun id => env.readBack store id matches .ok (some _)

/-- `recover_pending_write_pre_validation`. -/
def recoverPendingWritePreValidation (command : WriteCommand) :
    Durable (DaemonState σ) ApiError (Option DaemonIngestResponse) := do
  let state ← Durable.state
  match state.entries[command.idempotencyKey]? with
  | some (.pending _ pendingRecordIds _) =>
      if allMatched env command pendingRecordIds state.store then
        let response := recoveredResponse pendingRecordIds true
        completeIdempotencyEntry command.idempotencyKey command.payloadHash response
        return some response
      else return none
  | _ => return none

/-- The counts of `recover_pending_write`: matched and mismatched records. -/
def tallyExpected (store : σ) : List GraphRecord → Nat → Nat → Except ApiError (Nat × Nat)
  | [], found, conflicting => .ok (found, conflicting)
  | record :: rest, found, conflicting =>
      match env.expectedRecordState store record with
      | .ok .matched => tallyExpected store rest (found + 1) conflicting
      | .ok .mismatched => tallyExpected store rest found (conflicting + 1)
      | .ok .missing => tallyExpected store rest found conflicting
      | .error fault => .error (.internal fault.display)

/-- What `recover_pending_write` makes of the store: whether the batch is there, or none of
it is. -/
def recoveryVerdict (records : List GraphRecord) (store : σ) : Except ApiError Bool :=
  if unrecoverableKeys env records then
    .error (.conflict
      "idempotency key has duplicate record IDs in pending recovery; manual repair is required")
  else
    match tallyExpected env store records 0 0 with
    | .error fault => .error fault
    | .ok (found, conflicting) =>
        if conflicting > 0 then
          .error (.conflict
            "idempotency key has conflicting committed records; manual repair is required")
        else if found = 0 then .ok false
        else if found ≠ records.length then
          .error (.conflict
            "idempotency key has a partial committed write; manual repair is required")
        else .ok true

/-- `recover_pending_write`. -/
def recoverPendingWrite (command : WriteCommand) (records : List GraphRecord) :
    Durable (DaemonState σ) ApiError (Option DaemonIngestResponse) := do
  let state ← Durable.state
  if ← Durable.ofExcept (recoveryVerdict env records state.store) then
    completeIdempotencyEntry command.idempotencyKey command.payloadHash
      (recoveredResponse (records.map GraphRecord.id) false)
    return some (recoveredResponse (records.map GraphRecord.id) true)
  else return none

/-! ## Writes -/

/-- The records as they are written: validated against the store, canonical, and followed by
the synthesized edges. -/
def allRecords (command : WriteCommand) (store : σ) : Except ApiError (List GraphRecord) := do
  let (synthesizedEdges, canonicalNodes) ← env.validate store command.records
  match synthesizedEdges.find? fun edge =>
      (command.records.map GraphRecord.id).contains edge.id with
  | some edge =>
      .error (.conflict ("synthesized evidence-edge ID '" ++ edge.id ++
        "' conflicts with a submitted record"))
  | none =>
      let canonicalNodeMap : StrMap GraphRecord :=
        canonicalNodes.foldl (fun nodes node => nodes.insert node.id node) ∅
      return (command.records.map fun record => canonicalNodeMap.getD record.id record) ++
        synthesizedEdges

/-! ### Commits -/

/-- The stores after the commits of `writeRun`. -/
def runCommits (store : σ) : List GraphRecord → List σ
  | [] => []
  | run => (env.writeRecords store run).1

/-- The stores after the commits of `writeAndTally`. -/
def writeCommits (quarantined : StrSet) : List GraphRecord → List GraphRecord → σ → List σ
  | [], run, store => runCommits env store run
  | record :: rest, run, store =>
      if quarantined.contains record.id then
        runCommits env store run ++
          writeCommits quarantined rest [] ((runCommits env store run).getLastD store)
      else writeCommits quarantined rest (run ++ [record]) store

/-- The stores after the commits of `ingestRecordsWithPolicy`. -/
def ingestCommits (records : List GraphRecord) (store : σ) (policy : DanglingCitationPolicy) :
    List σ :=
  let (quarantined, _) := quarantine (storeHasNode env.toGraphSink store) records env.json
  match policy, quarantined.min? with
  | .rejectBatch, some _ => []
  | _, _ => writeCommits env quarantined (orderedRecords records) [] store

/-- Ingest the records, commit by commit, and receipt the write. -/
def ingestAndComplete (command : WriteCommand) (records : List GraphRecord) :
    Durable (DaemonState σ) ApiError DaemonIngestResponse := do
  let state ← Durable.state
  let (_, report) := ingestRecordsWithPolicy env.toGraphSink env.json records state.store
    command.danglingCitationPolicy
  Durable.through fun state =>
    (ingestCommits env records state.store command.danglingCitationPolicy).map fun store =>
      { state with store := store }
  let response := DaemonIngestResponse.fromReport report (records.map GraphRecord.id) false
  completeIdempotencyEntry command.idempotencyKey command.payloadHash response
  return response

/-- `apply_write`, past the receipts: validate and write, unless `recover_pending_write` finds
the records of a pending receipt. -/
def validateAndWrite (command : WriteCommand) (isPending : Bool) :
    Durable (DaemonState σ) ApiError DaemonIngestResponse := do
  let state ← Durable.state
  let records ← Durable.ofExcept (allRecords env command state.store)
  if isPending then
    match ← recoverPendingWrite env command records with
    | some response => return response
    | none => ingestAndComplete env command records
  else
    setEntryDurably command.idempotencyKey
      (.pending command.payloadHash (records.map GraphRecord.id) command.records)
    ingestAndComplete env command records

/-- `apply_write`. -/
def applyWrite (command : WriteCommand) :
    Durable (DaemonState σ) ApiError DaemonIngestResponse := do
  Durable.ofExcept (validateUniqueRecoveryKeys env command.records)
  let state ← Durable.state
  match state.entries[command.idempotencyKey]? with
  | none => validateAndWrite env command false
  | some entry =>
      if entry.payloadHash ≠ command.payloadHash then
        Durable.ofExcept (.error (.conflict "idempotency key reused with different payload"))
      else
        match entry with
        | .committed _ response => return { response with idempotent := true }
        | .pending _ _ _ =>
            match ← recoverPendingWritePreValidation env command with
            | some response => return response
            | none => validateAndWrite env command true

end Egregore
