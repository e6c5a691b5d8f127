import Egregore.Base.Dedup
import Egregore.Base.Tally
import Egregore.LogScan

/-!
# Records of a log scan

`log_graph.rs`: the records of `scan_log_records`. One turn of its loop makes the records of one
signature: the signature, the exemplars that are kept of it, and its hourly buckets.
-/

namespace Egregore.LogGraph

open Base Redaction

/-! ## Records -/

/-- `LOG_SCHEMA_VERSION`. -/
def logSchemaVersion : Nat := 3

/-- `FINGERPRINT_ALGORITHM`. -/
def fingerprintAlgorithm : String := "template-v1"

/-- `DEFAULT_EXEMPLAR_CAP`. -/
def defaultExemplarCap : Nat := 5

/-- `BUCKET_WIDTH`. -/
def bucketWidth : String := "1h"

/-- `EXCERPT_MAX_CHARS`. -/
def excerptMaxChars : Nat := 200

/-- `REDACTION_POLICY_VERSION`. -/
def redactionPolicyVersion : String := "v1"

/-- `LogSourcePayload`. -/
structure LogSourcePayload where
  sourceRelativePath : String
  sourceFormatVersion : String
  sourceArtifactHash : String
  lineCount : Nat
  repositoryId : String
  deriving DecidableEq, Repr

/-- `ErrorSignaturePayload`. -/
structure ErrorSignaturePayload where
  fingerprintAlgorithm : String
  templateExcerpt : String
  severity : String
  occurrenceCount : Nat
  firstSeen : String
  lastSeen : String
  frames : Option (List StackFrame)
  repositoryId : String
  deriving DecidableEq, Repr

/-- `LogEventPayload`. -/
structure LogEventPayload where
  eventExcerpt : String
  eventContentHash : String
  sourceLine : Nat
  severity : String
  repositoryId : String
  deriving DecidableEq, Repr

/-- `LogOccurrenceBucketPayload`. -/
structure LogOccurrenceBucketPayload where
  bucketStart : String
  bucketWidth : String
  occurrenceCount : Nat
  sourceId : String
  repositoryId : String
  occurrenceTimestamps : List String
  deriving DecidableEq, Repr

/-- A node of the log domain, with the payload of its kind. -/
structure LogNode (Payload : Type) where
  id : String
  repoRelativePath : Option String := none
  name : Option String
  summary : String
  payload : Payload
  validTime : String
  validTimeSource : String
  redactionPolicyVersion : Option String := none
  deriving DecidableEq, Repr

/-- `EdgeLabel`, of the log domain. -/
inductive LogEdgeLabel where
  | capturedFrom | fingerprintedAs | aggregates
  deriving DecidableEq, Repr

/-- `EdgeLabel::as_str`. -/
def LogEdgeLabel.asStr : LogEdgeLabel → String
  | .capturedFrom => "CAPTURED_FROM"
  | .fingerprintedAs => "FINGERPRINTED_AS"
  | .aggregates => "AGGREGATES"

/-- A record of the log domain. -/
inductive LogRecord where
  | source (node : LogNode LogSourcePayload)
  | signature (node : LogNode ErrorSignaturePayload)
  | event (node : LogNode LogEventPayload)
  | bucket (node : LogNode LogOccurrenceBucketPayload)
  | edge (id : String) (label : LogEdgeLabel) (source target summary : String)
  deriving DecidableEq, Repr

/-- `ExemplarCapDiagnostic`. -/
structure ExemplarCapDiagnostic where
  code : String
  signatureId : String
  severity : String
  kept : Nat
  dropped : Nat
  deriving DecidableEq, Repr

/-- What a scan is attributed to. -/
structure ScanSite where
  sourceRelativePath : String
  repositoryId : String
  transactionTime : String
  deriving DecidableEq, Repr

section Identities

variable (blake3 : Bytes → Vector UInt8 32)

/-- What is hashed of the parts of an identity. -/
def identityBytes (parts : List String) : Bytes := parts.flatMap fun part => asBytes part ++ [0]

/-- `log_stable_id`. -/
def logStableId (parts : List String) : String :=
  "log:v" ++ toString logSchemaVersion ++ ":" ++
    String.ofList (toHex (blake3 (identityBytes parts)))

/-- `log_edge`. -/
def logEdge (label : LogEdgeLabel) (repositoryId source target summary : String) : LogRecord :=
  .edge (logStableId blake3 ["edge", label.asStr, repositoryId, source, target]) label source target
    summary

end Identities

/-- `truncate_excerpt`. -/
def truncateExcerpt (text : String) : String := truncateChars text excerptMaxChars

/-! ## The loop over the signatures -/

/-- The severity and the template of an occurrence. -/
def signatureKey (occurrence : Occurrence) : String × String :=
  (occurrence.severity.asStr, occurrence.template)

/-- The occurrences of each signature. -/
def signatureGroups (occurrences : List Occurrence) :
    List ((String × String) × List Occurrence) :=
  (occurrences.foldl (pushEntry fun occurrence => some (signatureKey occurrence, occurrence))
    (∅ : Std.ExtTreeMap (String × String) (List Occurrence) pairOrder)).toList

section Turn

variable (env : LogEnv) (site : ScanSite) (sourceId : String)

/-- What identifies a signature: not the source that it was read from. -/
def signatureParts (key : String × String) : List String :=
  ["error_signature", site.repositoryId, fingerprintAlgorithm, key.2, key.1]

def signatureIdOf (key : String × String) : String :=
  logStableId env.blake3 (signatureParts site key)

/-- What identifies an hour of a signature in a source. -/
def bucketParts (signatureId bucketStart : String) : List String :=
  ["log_occurrence_bucket", site.repositoryId, signatureId, bucketStart, bucketWidth, sourceId]

/-- The texts of the earliest times come first. -/
def earlier (occurrence other : Occurrence) : Ordering :=
  byteOrder other.validTime occurrence.validTime

/-- The first and last of the valid times, as texts. -/
def firstSeen (occurrences : List Occurrence) : String :=
  (bestOf (fun text other => byteOrder other text) (occurrences.map Occurrence.validTime)).getD ""

def lastSeen (occurrences : List Occurrence) : String :=
  (bestOf byteOrder (occurrences.map Occurrence.validTime)).getD ""

/-- The occurrences that are earlier in the file come first. -/
def earlierLine (occurrence other : Occurrence) : Ordering :=
  compare other.sourceLine occurrence.sourceLine

instance : Std.TransCmp earlierLine :=
  inferInstanceAs (Std.TransCmp fun occurrence other =>
    compareOn Occurrence.sourceLine other occurrence)

/-- The frames of the first occurrence in the file that has some. -/
def signatureFrames (occurrences : List Occurrence) : Option (List StackFrame) :=
  (bestOf earlierLine (occurrences.filter fun occurrence => !occurrence.frames.isEmpty)).map
    Occurrence.frames

/-- The node of a signature. -/
def signatureNode (signatureId : String) (key : String × String) (occurrences : List Occurrence) :
    LogNode ErrorSignaturePayload :=
  let excerpt := truncateExcerpt key.2
  { id := signatureId
    name := some (key.1 ++ " signature")
    summary := "Error signature (" ++ key.1 ++ ") x" ++ toString occurrences.length ++ ": " ++ excerpt
    payload := {
      fingerprintAlgorithm
      templateExcerpt := excerpt
      severity := key.1
      occurrenceCount := occurrences.length
      firstSeen := firstSeen occurrences
      lastSeen := lastSeen occurrences
      frames := signatureFrames occurrences
      repositoryId := site.repositoryId }
    validTime := firstSeen occurrences
    validTimeSource :=
      ((bestOf earlier occurrences).map Occurrence.validTimeSource).getD validTimeSourceInferred
    redactionPolicyVersion :=
      if occurrences.any Occurrence.redacted then some redactionPolicyVersion else none }

/-- The time and the content of an occurrence. -/
def exemplarKey (occurrence : Occurrence) : String × String :=
  (occurrence.validTime, String.ofList (toHex (env.blake3 (asBytes occurrence.template))))

/-- The order of exemplars: by time, content and line. -/
def exemplarOrder : (String × String) × Occurrence → (String × String) × Occurrence → Ordering :=
  compareLex (compareOn fun exemplar => asBytes exemplar.1.1)
    (compareLex (compareOn fun exemplar => asBytes exemplar.1.2)
      (compareOn fun exemplar => exemplar.2.sourceLine))

instance : Std.TransCmp exemplarOrder := inferInstanceAs (Std.TransCmp (compareLex _ _))

/-- The exemplars by time and content, each the first in the file. -/
def exemplars (occurrences : List Occurrence) : List ((String × String) × Occurrence) :=
  let found : Std.ExtTreeMap (String × String) Occurrence pairOrder :=
    occurrences.foldl (keepBestOnto (exemplarKey env) earlierLine) ∅
  found.toList.insertionSort fun exemplar other => exemplarOrder exemplar other ≠ .gt

/-- What identifies an exemplar of a signature. -/
def eventParts (signatureId : String) (exemplar : String × String) : List String :=
  ["log_event", site.repositoryId, signatureId, exemplar.1, exemplar.2]

/-- The node of an exemplar. -/
def eventNode (signatureId : String) (key : String × String)
    (exemplar : (String × String) × Occurrence) : LogNode LogEventPayload :=
  let occurrence := exemplar.2
  { id := logStableId env.blake3 (eventParts site signatureId exemplar.1)
    name := some (key.1 ++ " event")
    summary := "Log event (" ++ key.1 ++ ") at line " ++ toString occurrence.sourceLine ++ " [" ++
      exemplar.1.1 ++ "]"
    payload := {
      eventExcerpt := truncateExcerpt key.2
      eventContentHash := exemplar.1.2
      sourceLine := occurrence.sourceLine
      severity := key.1
      repositoryId := site.repositoryId }
    validTime := exemplar.1.1
    validTimeSource := occurrence.validTimeSource
    redactionPolicyVersion :=
      if occurrence.redacted then some redactionPolicyVersion else none }

/-- The records of an exemplar. -/
def exemplarRecords (signatureId : String) (event : LogNode LogEventPayload) : List LogRecord :=
  [ .event event,
    logEdge env.blake3 .fingerprintedAs site.repositoryId event.id signatureId
      "LogEvent fingerprinted as ErrorSignature",
    logEdge env.blake3 .capturedFrom site.repositoryId event.id sourceId
      "LogEvent captured from LogSource" ]

/-- The diagnostic of the exemplars past the cap. -/
def exemplarDiagnostic (signatureId : String) (key : String × String) (distinct : Nat) :
    Option ExemplarCapDiagnostic :=
  if distinct > defaultExemplarCap then
    some {
      code := "exemplar_cap_reached"
      signatureId
      severity := key.1
      kept := defaultExemplarCap
      dropped := distinct - defaultExemplarCap }
  else none

/-- What the loop over the occurrences keeps of an hour: the count, whether a timestamp of the log
is in it, and the times. -/
structure BucketEntry where
  count : Nat := 0
  fromTimestamp : Bool := false
  times : List String := []
  deriving DecidableEq, Repr

/-- Count an occurrence in its hour. -/
def BucketEntry.push (entry : BucketEntry) (occurrence : Occurrence) : BucketEntry where
  count := entry.count + 1
  fromTimestamp := entry.fromTimestamp || occurrence.bucketFromTimestamp
  times := entry.times ++ [occurrence.preciseTime]

/-- The hours of a signature. -/
def hourlyBuckets (occurrences : List Occurrence) : StrMap BucketEntry :=
  occurrences.foldl (pushOnto Occurrence.bucketStart BucketEntry.push {}) ∅

/-- The node of an hour. -/
def bucketNode (signatureId : String) (key : String × String) (bucketStart : String)
    (entry : BucketEntry) : LogNode LogOccurrenceBucketPayload where
  id := logStableId env.blake3 (bucketParts site sourceId signatureId bucketStart)
  name := some (key.1 ++ " bucket " ++ bucketStart)
  summary := "Occurrence bucket " ++ bucketStart ++ " (" ++ bucketWidth ++ ") x" ++
    toString entry.count ++ " for " ++ key.1 ++ " signature"
  payload := {
    bucketStart
    bucketWidth
    occurrenceCount := entry.count
    sourceId
    repositoryId := site.repositoryId
    occurrenceTimestamps := entry.times.insertionSort fun time other => byteOrder time other ≠ .gt }
  validTime := bucketStart
  validTimeSource := if entry.fromTimestamp then validTimeSourceEvent else validTimeSourceInferred

/-- What one turn of the loop makes. -/
structure SignatureTurn where
  signature : LogNode ErrorSignaturePayload
  events : List (LogNode LogEventPayload)
  buckets : List (LogNode LogOccurrenceBucketPayload)
  diagnostic : Option ExemplarCapDiagnostic

/-- The records of a turn, in order. -/
def SignatureTurn.records (turn : SignatureTurn) : List LogRecord :=
  [ .signature turn.signature,
    logEdge env.blake3 .capturedFrom site.repositoryId turn.signature.id sourceId
      "ErrorSignature captured from LogSource" ] ++
  turn.events.flatMap (exemplarRecords env site sourceId turn.signature.id) ++
  turn.buckets.flatMap fun bucket =>
    [ .bucket bucket,
      logEdge env.blake3 .aggregates site.repositoryId bucket.id turn.signature.id
        "LogOccurrenceBucket aggregates ErrorSignature" ]

/-- A turn of the loop over the signatures. -/
def signatureTurn (group : (String × String) × List Occurrence) : SignatureTurn :=
  let key := group.1
  let signatureId := signatureIdOf env site key
  let ordered := exemplars env group.2
  { signature := signatureNode site signatureId key group.2
    events := (ordered.take defaultExemplarCap).map (eventNode env site signatureId key)
    buckets := (hourlyBuckets group.2).toList.map fun (bucketStart, entry) =>
      bucketNode env site sourceId signatureId key bucketStart entry
    diagnostic := exemplarDiagnostic signatureId key ordered.length }

end Turn

/-! ## The scan -/

/-- `LogScanError`. -/
inductive LogScanError where
  | read (source : String)
  | unrecognizedFormat (detail : String)
  deriving DecidableEq, Repr

/-- `LogScan`. -/
structure LogScan where
  records : List LogRecord
  sourceFormatVersion : String
  diagnostics : List ExemplarCapDiagnostic
  normalizedSource : Option String

section Scan

variable (env : LogEnv) (site : ScanSite)

/-- The text of a log, where it is one. `utf8Error` is the message of the decoder. -/
def logText (utf8Error : Bytes → String) (normalized : Bytes) : Except LogScanError String :=
  if 0 ∈ normalized then .error (.unrecognizedFormat "file contains NUL bytes; not a text log")
  else
    match fromUtf8 normalized with
    | none => .error (.unrecognizedFormat ("file is not valid UTF-8: " ++ utf8Error normalized))
    | some text => .ok text

/-- The node of the source. -/
def sourceNode (sourceId sourceArtifactHash text : String) : LogNode LogSourcePayload :=
  let lineCount := (lines text).length
  let sourceFormatVersion := detectFormat env text
  { id := sourceId
    repoRelativePath := some site.sourceRelativePath
    name := some site.sourceRelativePath
    summary := "Log source " ++ site.sourceRelativePath ++ " (" ++ sourceFormatVersion ++ "), " ++
      toString lineCount ++ " lines"
    payload := {
      sourceRelativePath := site.sourceRelativePath
      sourceFormatVersion
      sourceArtifactHash
      lineCount
      repositoryId := site.repositoryId }
    validTime := site.transactionTime
    validTimeSource := validTimeSourceInferred }

/-- The hour of the transaction time. -/
def txBucketOf : String :=
  (floorToHour env.chrono site.transactionTime).getD site.transactionTime

/-- The occurrences of a text. -/
def occurrencesOf (text : String) : List Occurrence :=
  (entriesOf env (detectFormat env text) text).map
    (occurrenceOf env site.transactionTime (txBucketOf env site))

/-- The turns of the loop over the signatures of a text. -/
def signatureTurns (sourceId text : String) : List SignatureTurn :=
  (signatureGroups (occurrencesOf env site text)).map (signatureTurn env site sourceId)

/-- The identity of a source. -/
def sourceIdOf (sourceArtifactHash : String) : String :=
  logStableId env.blake3
    ["log_source", site.repositoryId, site.sourceRelativePath, sourceArtifactHash]

/-- The hash of a log, with its line endings normalized. -/
def artifactHash (normalized : Bytes) : String := String.ofList (toHex (env.blake3 normalized))

/-- What `scan_log_records` makes of the text of a log. -/
def scanText (sourceArtifactHash text : String) (retainNormalizedSource : Bool) : LogScan :=
  let sourceId := sourceIdOf env site sourceArtifactHash
  let turns := signatureTurns env site sourceId text
  { records := .source (sourceNode env site sourceId sourceArtifactHash text) ::
      turns.flatMap (SignatureTurn.records env site sourceId)
    sourceFormatVersion := detectFormat env text
    diagnostics := turns.filterMap SignatureTurn.diagnostic
    normalizedSource := if retainNormalizedSource then some text else none }

/-- `scan_log_records`, of what reading the file gives. -/
def scanLogRecords (utf8Error : Bytes → String) (file : Except String Bytes)
    (retainNormalizedSource : Bool) : Except LogScanError LogScan := do
  let raw ← file.mapError .read
  let normalized := normalizeNewlines raw
  let text ← logText utf8Error normalized
  return scanText env site (artifactHash env normalized) text retainNormalizedSource

end Scan

end Egregore.LogGraph
