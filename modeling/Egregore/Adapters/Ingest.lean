import Egregore.Adapters.Citations
import Egregore.Base.Saturation
import Mathlib.Data.List.Sort

/-!
# Ingest

`adapters/mod.rs`: citations are resolved against the batch and the sink, records
that cite nothing live are quarantined in rounds, and the others are written in
the order of nodes, edges and tombstones.
-/

namespace Egregore

open Base

/-- `GraphSink`, as far as an ingest uses it. -/
structure GraphSink (σ : Type) where
  readBack : σ → String → Except AdapterError (Option GraphRecord)
  writeAndVerifyRecords : σ → List GraphRecord → σ × List (Except AdapterError WriteOutcome)

/-- `DanglingCitationPolicy`. -/
inductive DanglingCitationPolicy where
  | quarantine | rejectBatch
  deriving DecidableEq, Repr

/-- `IngestFailure`. -/
structure IngestFailure where
  recordId : String
  message : String
  deriving DecidableEq, Repr

/-- `IngestReport`. -/
structure IngestReport where
  attempted : Nat := 0
  succeeded : Nat := 0
  failed : Nat := 0
  failures : List IngestFailure := []
  inserted : Nat := 0
  unchanged : Nat := 0
  deriving DecidableEq, Repr

/-- The text of an `AdapterError`. -/
def AdapterError.display : AdapterError → String
  | .rejected recordId message => "sink rejected record " ++ recordId ++ ": " ++ message
  | .readBack recordId message =>
      "read-back verification failed for record " ++ recordId ++ ": " ++ message
  | .unknownSchemaVersion _ version =>
      "unknown_schema_version: " ++ version.domain ++ " " ++ version.kind ++ " v" ++
        toString version.version
  | .capacityExceeded resource limit detail =>
      "capacity exceeded for " ++ resource ++ " (limit " ++
        (match limit with
          | some limit => "Some(" ++ toString limit ++ ")"
          | none => "None") ++ "): " ++ detail

def danglingEvidenceCitationCode : String := "dangling_evidence_citation"

/-- `dangling_citation_diagnostic`; `json` writes an object of string values. -/
def danglingCitationDiagnostic (json : List (String × String) → String)
    (citation : EvidenceCitation) : String :=
  json [("code", danglingEvidenceCitationCode),
    ("citing_record_id", citation.citingRecordId),
    ("target_record_id", citation.targetRecordId),
    ("relation", citation.relation),
    ("target_domain", citation.targetDomain)]

/-- The class a record is sorted by. -/
def recordClass : GraphRecord → Nat
  | .node _ => 0
  | .edge _ => 1
  | .tombstone _ => 2

def orderedBefore (record other : GraphRecord) : Prop :=
  recordClass record < recordClass other ∨
    recordClass record = recordClass other ∧ byteOrder record.id other.id ≠ .gt

instance : DecidableRel orderedBefore := fun _ _ => inferInstanceAs (Decidable (_ ∨ _))

/-- `ordered_records`: a stable sort by class and record ID. -/
def orderedRecords (records : List GraphRecord) : List GraphRecord :=
  records.insertionSort orderedBefore

section Resolution

variable (inStore : String → Bool) (records : List GraphRecord)

/-- A node record of the batch that no batch tombstone deletes. -/
def batchLiveNode (id : String) : Bool :=
  (records.any fun record => record.writesNode id) && !(Liveness.new records).deleted id

/-- `CitationResolution::target_is_live`, without the memo of the store's answers. -/
def targetIsLive (quarantined : StrSet) (target : String) : Bool :=
  if batchLiveNode records target && !quarantined.contains target then true
  else if (Liveness.new records).deleted target then false
  else inStore target

/-- The citations grouped by their citing record. -/
def byCiter : StrMap (List EvidenceCitation) :=
  (collectEvidenceCitations records).foldl
    (fun groups citation => groups.alter citation.citingRecordId fun group =>
      some (group.getD [] ++ [citation])) ∅

/-- The first citation of a record that resolves to nothing. -/
def danglingCitation (quarantined : StrSet) (citer : String) : Option EvidenceCitation :=
  ((byCiter records).getD citer []).find? fun citation =>
    !targetIsLive inStore records quarantined citation.targetRecordId

/-- The quarantine loop, for a bounded number of rounds. -/
def quarantineLoop (json : List (String × String) → String) :
    Nat → StrSet → StrMap String → StrSet × StrMap String
  | 0, quarantined, diagnostics => (quarantined, diagnostics)
  | rounds + 1, quarantined, diagnostics =>
      let newly := (byCiter records).keys.filterMap fun citer =>
        if quarantined.contains citer then none
        else (danglingCitation inStore records quarantined citer).map fun citation =>
          (citer, danglingCitationDiagnostic json citation)
      if newly.isEmpty then (quarantined, diagnostics)
      else
        quarantineLoop json rounds
          (newly.foldl (fun quarantined entry => quarantined.insert entry.1) quarantined)
          (newly.foldl (fun diagnostics entry => diagnostics.insert entry.1 entry.2) diagnostics)

/-- The quarantined IDs and their diagnostics. Every round but the last quarantines a citing
record, so the rounds suffice. -/
def quarantine (json : List (String × String) → String) : StrSet × StrMap String :=
  quarantineLoop inStore records json ((byCiter records).size + 1) ∅ ∅

end Resolution

section Write

variable {σ : Type} (sink : GraphSink σ)

/-- `diagnostic_for`. -/
def diagnosticFor (diagnostics : StrMap String) (citer : String) : String :=
  diagnostics.getD citer (danglingEvidenceCitationCode ++ ": no dangling citation found")

/-- Tally a failed record. -/
def IngestReport.fail (report : IngestReport) (recordId message : String) : IngestReport :=
  { report with
    attempted := report.attempted + 1
    failed := report.failed + 1
    failures := report.failures ++ [⟨recordId, message⟩] }

/-- Tally one result of the sink. -/
def IngestReport.tally (report : IngestReport) :
    GraphRecord × Except AdapterError WriteOutcome → IngestReport
  | (_, .ok .inserted) =>
      { report with
        attempted := report.attempted + 1
        succeeded := report.succeeded + 1
        inserted := report.inserted + 1 }
  | (_, .ok .unchanged) =>
      { report with
        attempted := report.attempted + 1
        succeeded := report.succeeded + 1
        unchanged := report.unchanged + 1 }
  | (record, .error fault) => report.fail record.id fault.display

/-- Hand a run of writable records to the sink. -/
def writeRun (state : σ) (report : IngestReport) : List GraphRecord → σ × IngestReport
  | [] => (state, report)
  | run =>
      let (state, results) := sink.writeAndVerifyRecords state run
      (state, (run.zip results).foldl IngestReport.tally report)

/-- The loop of `write_and_tally`: `run` is the maximal run of writable records that the next
quarantined record, or the end, completes. -/
def writeAndTally (quarantined : StrSet) (diagnostics : StrMap String) :
    List GraphRecord → List GraphRecord → σ → IngestReport → σ × IngestReport
  | [], run, state, report => writeRun sink state report run
  | record :: rest, run, state, report =>
      if quarantined.contains record.id then
        let (state, report) := writeRun sink state report run
        writeAndTally quarantined diagnostics rest [] state
          (report.fail record.id (diagnosticFor diagnostics record.id))
      else writeAndTally quarantined diagnostics rest (run ++ [record]) state report

/-- The report of a batch that `reject-batch` turns away. -/
def rejectedReport (quarantined : StrSet) (diagnostics : StrMap String) (firstCiter : String)
    (ordered : List GraphRecord) : IngestReport :=
  ordered.foldl (fun report record =>
    report.fail record.id
      (if quarantined.contains record.id then diagnosticFor diagnostics record.id
      else "batch rejected under reject-batch policy: record '" ++ firstCiter ++
        "' cites dangling cross-domain evidence; no records were written")) {}

/-- A stored node: what `target_is_live` asks of the sink. -/
def storeHasNode (state : σ) (target : String) : Bool :=
  match sink.readBack state target with
  | .ok (some (.node _)) => true
  | _ => false

/-- `ingest_records_with_policy`. -/
def ingestRecordsWithPolicy (json : List (String × String) → String)
    (records : List GraphRecord) (state : σ) (policy : DanglingCitationPolicy) :
    σ × IngestReport :=
  let (quarantined, diagnostics) := quarantine (storeHasNode sink state) records json
  match policy, quarantined.min? with
  | .rejectBatch, some firstCiter =>
      (state, rejectedReport quarantined diagnostics firstCiter (orderedRecords records))
  | _, _ => writeAndTally sink quarantined diagnostics (orderedRecords records) [] state {}

/-- `ingest_records`, at the default policy. -/
def ingestRecords (json : List (String × String) → String) (records : List GraphRecord)
    (state : σ) : σ × IngestReport :=
  ingestRecordsWithPolicy sink json records state .quarantine

end Write

end Egregore
