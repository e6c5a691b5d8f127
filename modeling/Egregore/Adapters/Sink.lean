import Egregore.SchemaVersion

/-!
# Graph sinks

The errors and outcomes of a record write, and the schema gate every adapter
applies.
-/

namespace Egregore

open Base

/-- `AdapterError`, as far as reading and writing records raises it. -/
inductive AdapterError where
  | rejected (recordId message : String)
  | readBack (recordId message : String)
  | unknownSchemaVersion (line : Option Nat) (version : RecordVersion)
  | capacityExceeded (resource : String) (limit : Option Nat) (detail : String)
  deriving DecidableEq, Repr

/-- `WriteOutcome`. -/
inductive WriteOutcome where
  | inserted | unchanged
  deriving DecidableEq, Repr

/-- `ExpectedRecordState`. -/
inductive ExpectedRecordState where
  | matched | mismatched | missing
  deriving DecidableEq, Repr

/-- `MAX_INTERNED_STRINGS`. -/
def maxInternedStrings : Nat := 10_000_000

/-- `is_string_interner_capacity_error`. -/
def isStringInternerCapacityError (message : String) : Bool :=
  (containsText message "Capacity exceeded" && containsText message "string interner") ||
    containsText message "DoS protection"

/-- `classify_store_error`. -/
def classifyStoreError (recordId message : String) : AdapterError :=
  if isStringInternerCapacityError message then
    .capacityExceeded "string interner" (some maxInternedStrings) message
  else .rejected recordId message

/-- `validate_adapter_record_version`. -/
def validateAdapterRecordVersion (record : GraphRecord) : Except AdapterError Unit :=
  match validateRecordVersion record with
  | .ok () => .ok ()
  | .error unknown => .error (.unknownSchemaVersion none unknown.version)

/-- A record of a version this build reads. -/
def KnownVersion (record : GraphRecord) : Prop := isKnownRecordVersion (recordVersion record) = true

instance (record : GraphRecord) : Decidable (KnownVersion record) :=
  inferInstanceAs (Decidable (_ = true))

theorem validateAdapterRecordVersion_eq_ok_iff {record : GraphRecord} :
    validateAdapterRecordVersion record = .ok () ↔ KnownVersion record := by
  unfold validateAdapterRecordVersion validateRecordVersion KnownVersion
  cases known : isKnownRecordVersion (recordVersion record) <;> simp [known]

end Egregore
