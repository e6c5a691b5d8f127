import Egregore.Base.Lines
import Egregore.SchemaVersion

/-!
# Graph JSONL

Reading one line behind the version gate (`read_record_line`) and a whole text
(`records_from_jsonl`). The JSON parser is a parameter; the one fact used of it
is that a trailing carriage return is insignificant whitespace.
-/

namespace Egregore

open Base

/-- What `record_version_from_value` can tell apart in a `serde_json::Value`. -/
inductive Json where
  | string (text : String)
  | unsigned (value : Nat)
  | object (fields : List (String × Json))
  | other

/-- `Value::get`. -/
def Json.get (value : Json) (field : String) : Option Json :=
  match value with
  | .object fields => (fields.find? fun entry => entry.1 = field).map Prod.snd
  | _ => none

/-- The JSON parser: `from_str` at the two types it is used at. -/
structure SerdeJson where
  recordFromStr : String → Except String GraphRecord
  valueFromStr : String → Except String Json
  record_carriageReturn : ∀ line record,
    recordFromStr (line ++ "\r") = .ok record ↔ recordFromStr line = .ok record

/-- `RecordReadError`. -/
inductive RecordReadError where
  | json (message : String)
  | missingField (field : String)
  | invalidField (field message : String)
  deriving DecidableEq, Repr

/-- `RecordLineRead`. -/
inductive RecordLineRead where
  | record (record : GraphRecord)
  | unknownSchemaVersion (unknown : UnknownSchemaVersion)
  deriving DecidableEq, Repr

/-- `required_str`. -/
def requiredStr (value : Json) (field : String) : Except RecordReadError String :=
  match value.get field with
  | none => .error (.missingField field)
  | some (.string text) => .ok text
  | some _ => .error (.invalidField field "expected string")

/-- `optional_str`. -/
def optionalStr (value : Json) (field : String) : Option String :=
  match value.get field with
  | some (.string text) => some text
  | _ => none

/-- `required_u32`. -/
def requiredU32 (value : Json) (field : String) : Except RecordReadError Nat :=
  match value.get field with
  | none => .error (.missingField field)
  | some (.unsigned raw) =>
      if raw < 2 ^ 32 then .ok raw
      else .error (.invalidField field
        "out of range: out of range integral type conversion attempted")
  | some _ => .error (.invalidField field "expected non-negative integer")

/-- `record_version_from_value`. -/
def recordVersionFromValue (value : Json) : Except RecordReadError RecordVersion := do
  let recordType ← requiredStr value "record_type"
  let version ← requiredU32 value "schema_version"
  let id := optionalStr value "id"
  if recordType = "node" then
    let kind ← requiredStr value "kind"
    let domain := (((optionalStr value "domain").map normalizeDomainName).or
      (id.bind domainFromRecordId)).getD (domainForNodeKind kind).asStr
    return .new domain kind version
  else if recordType = "edge" then
    let label ← requiredStr value "label"
    let domain := (id.bind domainFromRecordId).getD (domainForEdgeLabel label).asStr
    return .new domain label version
  else if recordType = "tombstone" then
    let domain := ((id.bind domainFromRecordId).or
      ((optionalStr value "deleted_id").bind domainFromRecordId)).getD Domain.codeGraph.asStr
    return .new domain "Tombstone" version
  else
    .error (.invalidField "record_type" ("unsupported record_type `" ++ recordType ++ "`"))

/-- `read_record_line`. -/
def readRecordLine (serde : SerdeJson) (line : String) : Except RecordReadError RecordLineRead :=
  match serde.recordFromStr line with
  | .ok record =>
      match validateRecordVersion record with
      | .ok () => .ok (.record record)
      | .error unknown => .ok (.unknownSchemaVersion unknown)
  | .error recordError =>
      match serde.valueFromStr line with
      | .error message => .error (.json message)
      | .ok value =>
          match recordVersionFromValue value with
          | .error fault => .error fault
          | .ok version =>
              if isKnownRecordVersion version then .error (.json recordError)
              else .ok (.unknownSchemaVersion (.new version))

/-- A line yields a record exactly when it parses as one of a known version. -/
theorem readRecordLine_eq_record_iff {serde : SerdeJson} {line : String} {record : GraphRecord} :
    readRecordLine serde line = .ok (.record record) ↔
      serde.recordFromStr line = .ok record ∧
        isKnownRecordVersion (recordVersion record) = true := by
  unfold readRecordLine validateRecordVersion
  cases serde.recordFromStr line with
  | ok parsed =>
      by_cases known : isKnownRecordVersion (recordVersion parsed)
      · simp only [known, if_true, Except.ok.injEq, RecordLineRead.record.injEq]
        constructor
        · rintro rfl
          exact ⟨rfl, known⟩
        · exact fun found => found.1
      · simp only [known]
        constructor
        · simp
        · rintro ⟨same, known'⟩
          obtain rfl := Except.ok.inj same
          exact absurd known' known
  | error recordError =>
      constructor
      · intro found
        cases parsed : serde.valueFromStr line with
        | error message => simp [parsed] at found
        | ok value =>
            simp only [parsed] at found
            split at found
            · simp at found
            · split at found <;> simp at found
      · rintro ⟨impossible, -⟩
        cases impossible

theorem readRecordLine_carriageReturn {serde : SerdeJson} {line : String} {record : GraphRecord} :
    readRecordLine serde (line ++ "\r") = .ok (.record record) ↔
      readRecordLine serde line = .ok (.record record) := by
  rw [readRecordLine_eq_record_iff, readRecordLine_eq_record_iff, serde.record_carriageReturn]

/-- `AdapterError`, as `records_from_jsonl` raises it. -/
inductive JsonlError where
  | parse (line : Nat) (fault : RecordReadError)
  | unknownSchemaVersion (line : Nat) (version : RecordVersion)
  deriving DecidableEq, Repr

/-- The loop of `records_from_jsonl`, from line number `lineNo`. -/
def recordsFromLines (serde : SerdeJson) : Nat → List String → Except JsonlError (List GraphRecord)
  | _, [] => .ok []
  | lineNo, line :: rest =>
      if isBlank line then recordsFromLines serde (lineNo + 1) rest
      else
        match readRecordLine serde line with
        | .error fault => .error (.parse lineNo fault)
        | .ok (.unknownSchemaVersion unknown) =>
            .error (.unknownSchemaVersion lineNo unknown.version)
        | .ok (.record record) => do
            let records ← recordsFromLines serde (lineNo + 1) rest
            return record :: records

/-- `records_from_jsonl`. -/
def recordsFromJsonl (serde : SerdeJson) (jsonl : String) :
    Except JsonlError (List GraphRecord) :=
  recordsFromLines serde 1 (lines jsonl)

section Table

/-- The bytes of a line without its trailing carriage returns. -/
def stripCarriageReturns (line : Bytes) : Bytes :=
  (line.reverse.dropWhile (· = carriageReturn)).reverse

/-- A parser that knows the lines of a table only. -/
def tableSerde (table : List (String × GraphRecord)) : SerdeJson where
  recordFromStr line :=
    match table.find? fun entry => asBytes entry.1 = stripCarriageReturns (asBytes line) with
    | some (_, record) => .ok record
    | none => .error "not a record"
  valueFromStr _ := .error "not a record"
  record_carriageReturn line record := by
    have same : stripCarriageReturns (asBytes (line ++ "\r")) =
        stripCarriageReturns (asBytes line) := by
      rw [asBytes_append]
      simp [stripCarriageReturns, show asBytes "\r" = [carriageReturn] by decide]
    rw [same]

/-- The table as a graph file, one line a record. -/
def tableGraph (table : List (String × GraphRecord)) : Bytes :=
  table.flatMap fun entry => asBytes entry.1 ++ [newline]

end Table

end Egregore
