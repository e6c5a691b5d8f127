import Egregore.Jsonl
import Egregore.LogFrames
import Egregore.LogTemplate
import Egregore.LogTime
import Egregore.Base.Champion

/-!
# Log scans

`log_graph.rs`: the signatures, exemplars and hourly buckets that a scan makes of a log file. The
times and JSON values of a text, the hash and the file itself are parameters.
-/

namespace Egregore.LogGraph

open Base Redaction

/-- What a scan uses that is not of this repository. -/
structure LogEnv where
  chrono : Chrono
  /-- `serde_json::from_str` at `serde_json::Value`. -/
  valueFromStr : String → Option Json
  /-- `blake3::hash`. -/
  blake3 : Bytes → Vector UInt8 32
  /-- The canonical root of the repository, with forward slashes. -/
  rootStr : List Char

/-! ## Severities -/

/-- `Severity`. -/
inductive Severity where
  | fatal | error | warn
  deriving DecidableEq, Repr

/-- `Severity::as_str`. -/
def Severity.asStr : Severity → String
  | .fatal => "fatal"
  | .error => "error"
  | .warn => "warn"

/-- `severity_from_text`. -/
def severityFromText (text : String) : Option Severity :=
  if containsText text "panic" || containsText text "FATAL" then some .fatal
  else if containsText text "ERROR" then some .error
  else if containsText text "WARN" then some .warn
  else none

/-- `severity_from_level`. -/
def severityFromLevel (level : String) : Option Severity :=
  let level := String.ofList (level.toList.map Char.toLower)
  if level ∈ ["fatal", "panic", "critical", "crit"] then some .fatal
  else if level ∈ ["error", "err"] then some .error
  else if level ∈ ["warn", "warning"] then some .warn
  else none

/-! ## Entries

An entry is what the loops over a text take from it, before its time is resolved. -/

/-- An entry of a log. -/
structure LogEntry where
  severity : Severity
  /-- The text that is fingerprinted. -/
  message : String
  sourceLine : Nat
  /-- The time of the entry's own timestamp. -/
  timestamp : Option UtcDateTime
  frames : List StackFrame
  deriving DecidableEq, Repr

section Plain

/-- `is_continuation_line`. -/
def isContinuationLine (line : List Char) : Bool :=
  let trimmed := line.dropWhile isWhitespace
  !line.isEmpty &&
    (line.head? = some ' ' || line.head? = some '\t' || trimmed = "stack backtrace:".toList ||
      startsWith "note:" trimmed || startsWith "at " trimmed ||
      ((trimmed.head?.any Char.isDigit) && (trimmed.dropWhile Char.isDigit).head? = some ':'))

/-- An event of a plain log: its first line, and the text of all its lines. -/
structure PlainEvent where
  startLine : Nat
  header : String
  fullText : String
  deriving DecidableEq, Repr

/-- The loop of `parse_plain` over the lines. -/
def pushLine (events : List PlainEvent) (line : String × Nat) : List PlainEvent :=
  if !events.isEmpty && isContinuationLine line.1.toList then
    events.modifyLast fun event => { event with fullText := event.fullText ++ "\n" ++ line.1 }
  else events ++ [⟨line.2, line.1, line.1⟩]

/-- The entry of an event whose first line names a severity. -/
def plainEntry (env : LogEnv) (event : PlainEvent) : Option LogEntry :=
  (severityFromText event.header).map fun severity => {
    severity
    message := event.fullText
    sourceLine := event.startLine
    timestamp := parseTimestamp env.chrono event.header
    frames := parseFrames (fun text => env.blake3 (asBytes text)) env.rootStr event.fullText }

/-- The entries of `parse_plain`. -/
def plainEntries (env : LogEnv) (text : String) : List LogEntry :=
  (((lines text).zipIdx 1).foldl pushLine []).filterMap (plainEntry env)

end Plain

section Jsonl

/-- A line without the whitespace around it. -/
def trimmedLine (line : String) : String := String.ofList (trim line.toList)

def isObject : Json → Bool
  | .object _ => true
  | _ => false

/-- `first_str`. -/
def firstStr (object : Json) (keys : List String) : Option String :=
  keys.findSome? (optionalStr object)

/-- The entry of a line of `parse_jsonl`. -/
def jsonlEntry (env : LogEnv) (line : String × Nat) : Option LogEntry := do
  let object ← (env.valueFromStr (trimmedLine line.1)).filter isObject
  let severity ← (firstStr object ["level", "severity", "lvl"]).bind severityFromLevel
  let message := (firstStr object ["message", "msg", "error", "err"]).getD ""
  if message.isEmpty then none
  else return {
    severity
    message
    sourceLine := line.2
    timestamp := (firstStr object ["timestamp", "ts", "time"]).bind (parseTimestamp env.chrono)
    frames := [] }

/-- The entries of `parse_jsonl`. -/
def jsonlEntries (env : LogEnv) (text : String) : List LogEntry :=
  (((lines text).zipIdx 1).filter fun line => !isBlank line.1).filterMap (jsonlEntry env)

end Jsonl

/-! ## Formats -/

/-- `FORMAT_PLAIN_V1`. -/
def formatPlainV1 : String := "plain-v1"

/-- `FORMAT_JSONL_V1`. -/
def formatJsonlV1 : String := "jsonl-v1"

/-- `normalize_newlines`. -/
def normalizeNewlines : Bytes → Bytes
  | [] => []
  | [byte] => [if byte = carriageReturn then newline else byte]
  | byte :: next :: rest =>
      if byte = carriageReturn then
        if next = newline then newline :: normalizeNewlines rest
        else newline :: normalizeNewlines (next :: rest)
      else byte :: normalizeNewlines (next :: rest)

/-- `detect_format`. -/
def detectFormat (env : LogEnv) (text : String) : String :=
  let written := (lines text).filter fun line => !isBlank line
  if !written.isEmpty && written.all fun line =>
      (env.valueFromStr (trimmedLine line)).any isObject then formatJsonlV1
  else formatPlainV1

/-- The entries of a text in a format. -/
def entriesOf (env : LogEnv) (format text : String) : List LogEntry :=
  if format = formatJsonlV1 then jsonlEntries env text else plainEntries env text

/-! ## Occurrences -/

/-- `Occurrence`. -/
structure Occurrence where
  severity : Severity
  template : String
  redacted : Bool
  sourceLine : Nat
  validTime : String
  preciseTime : String
  validTimeSource : String
  bucketStart : String
  bucketFromTimestamp : Bool
  frames : List StackFrame
  deriving DecidableEq, Repr

/-- `fingerprint`. -/
def fingerprint (env : LogEnv) (message : String) : String × Bool :=
  let normalized := LogTemplate.normalizeTemplateV1 message
  let redacted := redactValue (fun text => env.blake3 (asBytes text)) normalized
  (redacted, redacted ≠ normalized)

/-- The occurrence of an entry. -/
def occurrenceOf (env : LogEnv) (transactionTime txBucket : String) (entry : LogEntry) :
    Occurrence :=
  let time := resolveTime env.chrono entry.timestamp transactionTime txBucket
  let fingerprinted := fingerprint env entry.message
  { severity := entry.severity
    template := fingerprinted.1
    redacted := fingerprinted.2
    sourceLine := entry.sourceLine
    validTime := time.validTime
    preciseTime := time.preciseTime
    validTimeSource := time.validTimeSource
    bucketStart := time.bucketStart
    bucketFromTimestamp := time.bucketFromTimestamp
    frames := entry.frames }

/-! ## Protected capture -/

/-- A line that is redacted as a whole. -/
def redactLine (blake3 : String → Vector UInt8 32) (line : List Char) : List Char :=
  (redactValue blake3 (String.ofList line)).toList

/-- A redacted text whose lines are redacted once more. -/
def capturedText (blake3 : String → Vector UInt8 32) (redacted : String) : String :=
  String.ofList ((splitInclusive (· = '\n') redacted.toList).flatMap
    (mapLine '\n' (redactLine blake3)))

/-- `redacted_source_bytes`, where the redaction of the whole text may take so many rounds. -/
def redactedSourceBytes (env : LogEnv) (rounds : Nat) (text : String) : Option Bytes :=
  (redactCodeText rounds text redactedSecret).map fun redacted =>
    asBytes (capturedText (fun text => env.blake3 (asBytes text)) redacted.1)

end Egregore.LogGraph
