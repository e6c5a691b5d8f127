import Egregore.Adapters.EmbeddedWrite
import Egregore.Adapters.ReadAll
import Egregore.Base.Recency
import Egregore.Incremental
import Egregore.WorktreeDiff

/-!
# Forgetting a record

`forget.rs` and `cli/forget.rs`: a retraction writes an event node and then a tombstone of the
target. A later run reads off the store what is still missing.
-/

namespace Egregore

open Base

/-- What the command takes from its libraries: times, hashes of ID parts, and redaction. -/
structure ForgetEnv where
  parseFromRfc3339 : String → Except String Int
  blake3 : List String → String
  redactValue : String → String
  isRedacted : String → Bool

/-- `ForgetRequest`. -/
structure ForgetRequest where
  handle : String
  reason : String
  retractedBy : String
  transactionTime : Option String := none
  deriving DecidableEq

/-- The handle that is looked up. -/
def ForgetRequest.target (req : ForgetRequest) : String := String.ofList (trim req.handle.toList)

/-- `RetractionEvent`. -/
structure RetractionEvent where
  retractionId : String
  tombstoneId : String
  retractedRecordId : String
  retractedBy : String
  retractedAt : String
  reason : String
  deriving DecidableEq

/-- `ForgetOutcome`. -/
inductive ForgetOutcome where
  | retracted (event : RetractionEvent) (records : List GraphRecord)
  | alreadyRetracted (event : RetractionEvent)
  deriving DecidableEq

/-- `ForgetError`. -/
inductive ForgetError where
  | missingReason
  | missingActor
  | invalidTransactionTime (value message : String)
  | notFound (handle : String)
  | deterministicCodeFact (recordId kind : String)
  | derivedSemanticRecord (recordId kind : String)
  | temporalRecord (recordId kind : String)
  | unsupportedTarget (recordId detail : String)
  deriving DecidableEq

namespace Forget

section Retraction

variable (env : ForgetEnv)

/-- `agent_memory_stable_id`. -/
def agentMemoryStableId (parts : List String) : String :=
  "agent_memory:v" ++ toString agentMemorySchemaVersion ++ ":" ++ env.blake3 parts

/-- `retraction_event_id`. -/
def retractionEventId (targetId : String) : String :=
  agentMemoryStableId env ["node", "retraction", targetId]

/-- The domain and version that the target's ID spells. -/
def targetDomain (targetId : String) : String × Nat :=
  ((splitOnce [':', 'v'] targetId.toList).bind fun (domain, rest) =>
    (splitOnce [':'] rest).bind fun (version, _) =>
      (parseU32 version).map fun version => (String.ofList domain, version)).getD
    ("agent_memory", agentMemorySchemaVersion)

/-- `retraction_tombstone_id`. -/
def retractionTombstoneId (targetId : String) : String × Nat :=
  let (domain, version) := targetDomain targetId
  (domain ++ ":v" ++ toString version ++ ":" ++ env.blake3 ["tombstone", "retraction", targetId],
    version)

/-- `validate_request`. -/
def validateRequest (req : ForgetRequest) : Except ForgetError Unit :=
  if isBlank req.reason then .error .missingReason
  else if isBlank req.retractedBy then .error .missingActor
  else
    match req.transactionTime with
    | none => .ok ()
    | some value =>
        match env.parseFromRfc3339 value with
        | .ok _ => .ok ()
        | .error message => .error (.invalidTransactionTime value message)

/-- The kind that a refusal names. -/
def kindName : GraphRecord → String
  | .node record => record.kind.asStr
  | .edge _ => "edge"
  | .tombstone _ => "tombstone"

/-- `refuse_unsupported_target`. -/
def refuseUnsupportedTarget (target : GraphRecord) (handle : String) : Except ForgetError Unit :=
  if domainFromRecordId handle = some "codegraph" then
    .error (.deterministicCodeFact handle (kindName target))
  else if domainFromRecordId handle = some "semantic" then
    .error (.derivedSemanticRecord handle (kindName target))
  else
    match target with
    | .tombstone _ =>
        .error (.unsupportedTarget handle ("'" ++ handle ++
          "' is a tombstone; deletion markers cannot themselves be retracted"))
    | .edge _ => .ok ()
    | .node node =>
        if node.kind = .retraction then
          .error (.unsupportedTarget handle ("'" ++ handle ++
            "' is a retraction event; forgetting the audit trail would turn retraction into a " ++
            "silent hole"))
        else if node.temporal.isSome then .error (.temporalRecord handle node.kind.asStr)
        else .ok ()

/-- `build_event_node`. -/
def buildEventNode (handle : String) (event : RetractionEvent) : NodeRecord where
  id := event.retractionId
  kind := .retraction
  schemaVersion := agentMemorySchemaVersion
  summary := "Retraction event for " ++ handle
  domain := some "agent_memory"
  rest := [("text", event.reason), ("agent_id", event.retractedBy),
    ("transaction_time", event.retractedAt), ("source_handle", handle),
    ("valid_time", event.retractedAt), ("valid_time_source", "inferred_from_transaction_time")] ++
    if env.isRedacted event.reason || env.isRedacted event.retractedBy then
      [("redaction_policy_version", redactionPolicyVersion)]
    else []

/-- The tombstone of a retraction. -/
def retractionTombstone (handle : String) : TombstoneRecord where
  id := (retractionTombstoneId env handle).1
  schemaVersion := (retractionTombstoneId env handle).2
  deletedId := handle
  summary := "Operator retraction of " ++ handle ++ "; see retraction event " ++
    retractionEventId env handle

/-- The event that a stored event node tells. -/
def storedRetraction (handle : String) (node : NodeRecord) : RetractionEvent where
  retractionId := retractionEventId env handle
  tombstoneId := (retractionTombstoneId env handle).1
  retractedRecordId := handle
  retractedBy := (node.rest.lookup "agent_id").getD ""
  retractedAt := (node.rest.lookup "transaction_time").getD ""
  reason := (node.rest.lookup "text").getD ""

/-- The event of a new retraction; `now` is the clock's text. -/
def newRetraction (now : String) (req : ForgetRequest) : RetractionEvent where
  retractionId := retractionEventId env req.target
  tombstoneId := (retractionTombstoneId env req.target).1
  retractedRecordId := req.target
  retractedBy := env.redactValue (String.ofList (trim req.retractedBy.toList))
  retractedAt := req.transactionTime.getD now
  reason := env.redactValue (String.ofList (trim req.reason.toList))

/-- The retraction event of the target in a slice: the last record under its ID, if that is one. -/
def findRetraction (handle : String) (records : List GraphRecord) : Option NodeRecord :=
  match lastEvent (fun record => record.id = retractionEventId env handle) records with
  | some (.node node) => if node.kind = .retraction then some node else none
  | _ => none

/-- `retract_from_records`. -/
def retractFromRecords (now : String) (records : List GraphRecord) (req : ForgetRequest) :
    Except ForgetError ForgetOutcome :=
  match validateRequest env req with
  | .error fault => .error fault
  | .ok () =>
      match findRetraction env req.target records with
      | some node =>
          let event := storedRetraction env req.target node
          -- A tombstone in the current read is in force.
          if records.any (GraphRecord.deletes req.target) then .ok (.alreadyRetracted event)
          else .ok (.retracted event [.tombstone (retractionTombstone env req.target)])
      | none =>
          match lastEvent (fun record => record.id = req.target) records with
          | none => .error (.notFound req.target)
          | some target =>
              match refuseUnsupportedTarget target req.target with
              | .error fault => .error fault
              | .ok () =>
                  let event := newRetraction env now req
                  .ok (.retracted event [.node (buildEventNode env req.target event),
                    .tombstone (retractionTombstone env req.target)])

end Retraction

/-! ## The command -/

/-- What ends the command. -/
inductive ForgetFailure where
  | store (fault : AdapterError)
  | refused (fault : ForgetError)
  | write (faults : List AdapterError)

section Command

variable (aletheia : Aletheia) (env : ForgetEnv)

/-- Write records one after another, past failures. -/
def writeRecords : EmbeddedAletheiaSink → List GraphRecord →
    EmbeddedAletheiaSink × List AdapterError
  | sink, [] => (sink, [])
  | sink, record :: rest =>
      match sink.writeAndVerify aletheia record with
      | (sink, .ok _) => writeRecords sink rest
      | (sink, .error fault) =>
          let (sink, faults) := writeRecords sink rest
          (sink, fault :: faults)

/-- `forget_cmd`, on a stored database. -/
def forgetCmd (now : String) (req : ForgetRequest) (db : Database) :
    Database × Except ForgetFailure ForgetOutcome :=
  match EmbeddedAletheiaSink.openStore aletheia db with
  | .error fault => (db, .error (.store fault))
  | .ok sink =>
      match sink.readAllRecords aletheia with
      | .error fault => (db, .error (.store fault))
      | .ok records =>
          match retractFromRecords env now records req with
          | .error fault => (db, .error (.refused fault))
          | .ok (.alreadyRetracted event) => (db, .ok (.alreadyRetracted event))
          | .ok (.retracted event generated) =>
              match writeRecords aletheia sink generated with
              | (sink, []) => (sink.db, .ok (.retracted event generated))
              | (sink, faults) => (sink.db, .error (.write faults))

end Command

end Forget

end Egregore
