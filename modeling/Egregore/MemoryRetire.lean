import Egregore.Base.Champion
import Egregore.Query.Liveness
import Egregore.Query.TxDelta

/-!
# Retirement from recall

`memory_retire.rs`: a belief is retired and reinstated by receipts appended to the store, and
its recall state is that of the newest receipt by transaction time.
-/

namespace Egregore

open Base

/-- `RetireReason`. -/
inductive RetireReason where
  | superseded | drifted | contradicted | operatorDecision
  deriving DecidableEq, Repr

def RetireReason.asStr : RetireReason → String
  | .superseded => "superseded"
  | .drifted => "drifted"
  | .contradicted => "contradicted"
  | .operatorDecision => "operator-decision"

def supersededByRelation : String := "SUPERSEDED_BY"
def driftedEvidenceRelation : String := "DRIFTED_EVIDENCE"
def contradictedByRelation : String := "CONTRADICTED_BY"
def citedEvidenceRelation : String := "CITED_EVIDENCE"

/-- `RetireRequest`. -/
structure RetireRequest where
  handle : String
  reason : RetireReason
  supersededBy : Option String := none
  evidenceHandle : Option String := none
  retiredBy : String
  transactionTime : Option String := none
  deriving DecidableEq

/-- `RetireEvent`. -/
structure RetireEvent where
  receiptId : String
  retiredRecordId : String
  retiredBy : String
  retiredAt : String
  reason : String
  supersededBy : Option String
  evidenceHandle : Option String
  deriving DecidableEq

/-- `RetireOutcome`. -/
inductive RetireOutcome where
  | retired (event : RetireEvent) (records : List GraphRecord)
  | alreadyRetired (event : RetireEvent) (records : List GraphRecord)
  deriving DecidableEq

/-- `RetireError`. -/
inductive RetireError where
  | missingActor
  | invalidTransactionTime (value message : String)
  | notFound (handle : String)
  | codegraphFact (recordId kind : String)
  | nonObservationTarget (recordId kind : String)
  | unsupportedTarget (recordId detail : String)
  | missingSupersedingRecord
  | danglingSupersedingRecord (supersededBy : String)
  | supersedingRecordNotObservation (supersededBy kind : String)
  | supersedingRecordRetired (supersededBy : String)
  | supersedingSelf (handle : String)
  | missingEvidenceHandle
  | unknownEvidenceHandle (evidenceHandle : String)
  | evidenceStillResolves (evidenceHandle : String)
  deriving DecidableEq

/-- `ReinstateRequest`. -/
structure ReinstateRequest where
  handle : String
  reason : String
  reinstatedBy : String
  transactionTime : Option String := none
  deriving DecidableEq

/-- `ReinstateEvent`. -/
structure ReinstateEvent where
  receiptId : String
  reinstatedRecordId : String
  reinstatedBy : String
  reinstatedAt : String
  reason : String
  deriving DecidableEq

/-- `ReinstateOutcome`. -/
inductive ReinstateOutcome where
  | reinstated (event : ReinstateEvent) (records : List GraphRecord)
  | alreadyActive (event : ReinstateEvent) (records : List GraphRecord)
  deriving DecidableEq

/-- `ReinstateError`. -/
inductive ReinstateError where
  | missingActor
  | invalidTransactionTime (value message : String)
  | notFound (handle : String)
  | notRetired (handle : String)
  | codegraphFact (recordId kind : String)
  | nonObservationTarget (recordId kind : String)
  deriving DecidableEq

/-- `RetirementState`. -/
inductive RetirementState where
  | active
  | retired (receiptId reason retiredBy retiredAt : String)
  deriving DecidableEq, Repr

/-- What the commands take from their libraries: times, and hashes of ID parts. -/
structure ReceiptEnv where
  parseFromRfc3339 : String → Except String Instant
  agentMemoryStableId : List String → String

/-! ## Targets -/

/-- `latest_live_record`. -/
def latestLiveRecord (records : List GraphRecord) (liveness : Liveness) (id : String) :
    Option GraphRecord :=
  (lastEvent (fun record => record.id = id) records).filter fun _ => !liveness.deleted id

/-- `handle_resolves`. -/
def handleResolves (records : List GraphRecord) (liveness : Liveness) (handle : String) : Bool :=
  (latestLiveRecord records liveness handle).isSome

/-- `TargetClass`. -/
inductive TargetClass where
  | observation
  | codegraphFact (kind : String)
  | nonObservation (kind : String)
  | unsupported (detail : String)

/-- `is_observation_class_kind`. -/
def isObservationClassKind : NodeKind → Bool
  | .observation | .decision | .failure => true
  | _ => false

/-- A retirement or reinstatement receipt. -/
def isReceiptKind : NodeKind → Bool
  | .retirementReceipt | .reinstatementReceipt => true
  | _ => false

/-- `classify_target`. -/
def classifyTarget (record : GraphRecord) : TargetClass :=
  match record with
  | .tombstone _ =>
      .unsupported "tombstones cannot be retired; the target is already retracted"
  | .edge edge =>
      let kind := "edge " ++ edge.label.asStr
      if domainFromRecordId record.id = some "codegraph" then .codegraphFact kind
      else .nonObservation kind
  | .node node =>
      if isReceiptKind node.kind || node.kind = .retraction then
        .unsupported "audit receipts cannot be retired; retirement applies to belief records"
      else if isObservationClassKind node.kind then .observation
      else if domainFromRecordId record.id = some "codegraph" || node.kind = .file ||
          node.kind = .symbol || node.kind = .importDecl || node.kind = .commit then
        .codegraphFact node.kind.asStr
      else .nonObservation node.kind.asStr

/-- `target_cites_handle`. -/
def targetCitesHandle (target : GraphRecord) (handle : String) : Bool :=
  match target with
  | .node node =>
      node.field "source_handle" = some handle ||
      node.field "source_artifact_path" = some handle ||
      node.field "source_artifact_hash" = some handle ||
      (node.evidenceLinks.getD []).any fun link => link.targetRecordId = some handle
  | _ => false

/-! ## Receipts -/

/-- The target of a receipt. -/
def receiptTarget : GraphRecord → Option String
  | .node node => if isReceiptKind node.kind then node.field "source_handle" else none
  | _ => none

/-- A receipt with what orders it: its transaction time and its position. -/
structure StampedReceipt where
  time : Option Instant
  position : Nat
  receipt : NodeRecord

/-- By transaction time, untimed ones first, then by position. -/
abbrev receiptOrder : StampedReceipt → StampedReceipt → Ordering :=
  compareLex (compareOn StampedReceipt.time) (compareOn StampedReceipt.position)

section Receipts

variable (env : ReceiptEnv)

/-- The parsed transaction time of a receipt. -/
def receiptTime (node : NodeRecord) : Option Instant :=
  (node.field "transaction_time").bind fun text => (env.parseFromRfc3339 text).toOption

/-- A receipt of the target that is not after the pinned instant. -/
def stampReceiptOf (target : String) (asOf : Option Instant) :
    GraphRecord × Nat → Option StampedReceipt
  | (.node node, position) =>
      if receiptTarget (.node node) = some target ∧
          ¬ ∃ time ∈ receiptTime env node, ∃ pin ∈ asOf, pin < time then
        some ⟨receiptTime env node, position, node⟩
      else none
  | _ => none

/-- `latest_receipt_node`. -/
def latestReceiptNode (records : List GraphRecord) (target : String) (asOf : Option Instant) :
    Option NodeRecord :=
  (bestOf receiptOrder (records.zipIdx.filterMap (stampReceiptOf env target asOf))).map
    StampedReceipt.receipt

/-- The newest receipt of a target, if it is a retirement. -/
def retirementInForce (records : List GraphRecord) (target : String) : Option NodeRecord :=
  (latestReceiptNode env records target none).filter fun node => node.kind = .retirementReceipt

/-- `receipt_link`. -/
def receiptLink (targetRecordId relation : String) : EvidenceLink where
  targetRecordId := some targetRecordId
  targetDomain := (domainFromRecordId targetRecordId).getD "unknown"
  relation := relation
  rest := [("confidence", "1.0")]

/-- `retire_event_from_node`. -/
def retireEventFromNode (node : NodeRecord) : RetireEvent where
  receiptId := node.id
  retiredRecordId := (node.field "source_handle").getD ""
  retiredBy := (node.field "agent_id").getD ""
  retiredAt := (node.field "transaction_time").getD ""
  reason := (node.field "text").getD ""
  supersededBy := (node.evidenceLinks.getD []).foldl (fun supersededBy link =>
    if link.relation = supersededByRelation then link.targetRecordId else supersededBy) none
  evidenceHandle := (node.evidenceLinks.getD []).foldl (fun evidenceHandle link =>
    if link.relation = driftedEvidenceRelation ∨ link.relation = contradictedByRelation ∨
        link.relation = citedEvidenceRelation then
      evidenceHandle.or link.targetRecordId
    else evidenceHandle) none

/-- `reinstate_event_from_node`. -/
def reinstateEventFromNode (node : NodeRecord) : ReinstateEvent where
  receiptId := node.id
  reinstatedRecordId := (node.field "source_handle").getD ""
  reinstatedBy := (node.field "agent_id").getD ""
  reinstatedAt := (node.field "transaction_time").getD ""
  reason := (node.field "text").getD ""

/-- The recall state that the newest receipt leaves. -/
def stateAfter (latest : Option NodeRecord) : RetirementState :=
  match latest with
  | none => .active
  | some node =>
      if node.kind = .retirementReceipt then
        let event := retireEventFromNode node
        .retired event.receiptId event.reason event.retiredBy event.retiredAt
      else .active

/-- `retirement_states`. -/
def retirementStates (records : List GraphRecord) (asOf : Option Instant) :
    StrMap RetirementState :=
  let targets : StrSet := (records.filterMap receiptTarget).foldl (·.insert ·) ∅
  targets.toList.foldl (fun states target =>
    states.insert target (stateAfter (latestReceiptNode env records target asOf))) ∅

/-- `is_retired`. -/
def isRetired (records : List GraphRecord) (recordId : String) : Bool :=
  match (retirementStates env records none)[recordId]? with
  | some (.retired ..) => true
  | _ => false

/-- A receipt node, with the fields that `stamp_receipt` sets. -/
def stampReceipt (id : String) (kind : NodeKind) (summary target body actor time : String)
    (links : List EvidenceLink) : NodeRecord where
  id := id
  kind := kind
  schemaVersion := agentMemorySchemaVersion
  domain := some "agent_memory"
  evidenceLinks := if links.isEmpty then none else some links
  summary := summary
  rest := [("text", body), ("agent_id", actor), ("transaction_time", time),
    ("source_handle", target), ("valid_time", time),
    ("valid_time_source", "inferred_from_transaction_time")]

/-- `retirement_receipt_id`. -/
def retirementReceiptId (target time reason retiredBy : String)
    (supersededBy evidenceHandle : Option String) : String :=
  env.agentMemoryStableId ["node", "retirement-receipt", target, time, reason, retiredBy,
    supersededBy.getD "", evidenceHandle.getD ""]

/-- `reinstatement_receipt_id`. -/
def reinstatementReceiptId (target time reason reinstatedBy : String) : String :=
  env.agentMemoryStableId ["node", "reinstatement-receipt", target, time, reason, reinstatedBy]

/-- `build_supersession_edge`, with label `SUPERSEDES`. -/
def buildSupersessionEdge (source target : String) : EdgeRecord where
  id := env.agentMemoryStableId ["edge", EdgeLabel.supersedes.asStr, source, target]
  schemaVersion := agentMemorySchemaVersion
  label := .supersedes
  source := source
  target := target
  summary := source ++ " " ++ EdgeLabel.supersedes.asStr ++ " " ++ target

end Receipts

/-! ## Commands -/

section Commands

variable (env : ReceiptEnv) (now : String) (records : List GraphRecord)

/-- `resolve_transaction_time`; `now` is the clock's text. -/
def resolveTransactionTime (value : Option String) : Except (String × String) String :=
  match value with
  | none => .ok now
  | some raw =>
      if isBlank raw then .error (raw, "transaction time must not be blank")
      else
        let trimmed := String.ofList (trim raw.toList)
        match env.parseFromRfc3339 trimmed with
        | .ok _ => .ok trimmed
        | .error message => .error (raw, message)

/-- `str::trim` and the filter of empty texts. -/
def trimmedNonEmpty (text : Option String) : Option String :=
  (text.map fun text => String.ofList (trim text.toList)).filter (· ≠ "")

/-- `resolve_retire_target`. -/
def resolveRetireTarget (handle : String) : Except RetireError GraphRecord :=
  match latestLiveRecord records (Liveness.new records) handle with
  | none => .error (.notFound handle)
  | some target =>
      match classifyTarget target with
      | .observation => .ok target
      | .codegraphFact kind => .error (.codegraphFact target.id kind)
      | .nonObservation kind => .error (.nonObservationTarget target.id kind)
      | .unsupported detail => .error (.unsupportedTarget target.id detail)

/-- `check_retire_reason_gates`: the superseding record and the evidence handle. -/
def checkRetireReasonGates (target : GraphRecord) (handle : String) (request : RetireRequest) :
    Except RetireError (Option String × Option String) :=
  let liveness := Liveness.new records
  match request.reason with
  | .superseded =>
      match trimmedNonEmpty request.supersededBy with
      | none => .error .missingSupersedingRecord
      | some superseder =>
          if superseder = handle then .error (.supersedingSelf handle)
          else match latestLiveRecord records liveness superseder with
            | none => .error (.danglingSupersedingRecord superseder)
            | some record =>
                match classifyTarget record with
                | .observation =>
                    if isRetired env records superseder then
                      .error (.supersedingRecordRetired superseder)
                    else .ok (some superseder, none)
                | .codegraphFact kind | .nonObservation kind | .unsupported kind =>
                    .error (.supersedingRecordNotObservation superseder kind)
  | .drifted =>
      match trimmedNonEmpty request.evidenceHandle with
      | none => .error .missingEvidenceHandle
      | some evidence =>
          if !targetCitesHandle target evidence then .error (.unknownEvidenceHandle evidence)
          else if handleResolves records liveness evidence then
            .error (.evidenceStillResolves evidence)
          else .ok (none, some evidence)
  | .contradicted | .operatorDecision =>
      match trimmedNonEmpty request.evidenceHandle with
      | none => .ok (none, none)
      | some evidence =>
          if handleResolves records liveness evidence then .ok (none, some evidence)
          else .error (.unknownEvidenceHandle evidence)

/-- The relation under which a receipt cites its evidence. -/
def evidenceRelation : RetireReason → String
  | .drifted => driftedEvidenceRelation
  | .contradicted => contradictedByRelation
  | .superseded | .operatorDecision => citedEvidenceRelation

/-- The links of a retirement receipt. -/
def retirementLinks (reason : RetireReason) (supersededBy evidenceHandle : Option String) :
    List EvidenceLink :=
  (supersededBy.map fun superseder => receiptLink superseder supersededByRelation).toList ++
    (evidenceHandle.map fun evidence => receiptLink evidence (evidenceRelation reason)).toList

/-- The receipt of a retirement. -/
def retirementReceipt (target time actor : String) (reason : RetireReason)
    (supersededBy evidenceHandle : Option String) : NodeRecord :=
  stampReceipt
    (retirementReceiptId env target time reason.asStr actor supersededBy evidenceHandle)
    .retirementReceipt ("Retirement of " ++ target ++ " (" ++ reason.asStr ++ ")") target
    reason.asStr actor time (retirementLinks reason supersededBy evidenceHandle)

/-- The edge from the superseding record, if there is one. -/
def supersessionEdge (target : String) (supersededBy : Option String) : List GraphRecord :=
  (supersededBy.map fun superseder =>
    GraphRecord.edge (buildSupersessionEdge env superseder target)).toList

/-- The event of a retirement and the records that it appends. -/
def retirement (target time actor : String) (reason : RetireReason)
    (supersededBy evidenceHandle : Option String) : RetireOutcome :=
  .retired {
    receiptId := retirementReceiptId env target time reason.asStr actor supersededBy evidenceHandle
    retiredRecordId := target
    retiredBy := actor
    retiredAt := time
    reason := reason.asStr
    supersededBy := supersededBy
    evidenceHandle := evidenceHandle }
    (.node (retirementReceipt env target time actor reason supersededBy evidenceHandle) ::
      supersessionEdge env target supersededBy)

/-- `retire_from_records`. -/
def retireFromRecords (request : RetireRequest) : Except RetireError RetireOutcome := do
  let actor := String.ofList (trim request.retiredBy.toList)
  if actor = "" then throw .missingActor
  let time ← (resolveTransactionTime env now request.transactionTime).mapError
    fun (value, message) => .invalidTransactionTime value message
  let handle := String.ofList (trim request.handle.toList)
  let target ← resolveRetireTarget records handle
  match retirementInForce env records target.id with
  | some node => return .alreadyRetired (retireEventFromNode node) []
  | none =>
      let (supersededBy, evidenceHandle) ← checkRetireReasonGates env records target handle request
      return retirement env target.id time actor request.reason supersededBy evidenceHandle

/-- The receipt of a reinstatement. -/
def reinstatementReceipt (target time actor reason : String) : NodeRecord :=
  stampReceipt (reinstatementReceiptId env target time reason actor) .reinstatementReceipt
    ("Reinstatement of " ++ target) target reason actor time []

/-- The event of a reinstatement and the record that it appends. -/
def reinstatement (target time actor reason : String) : ReinstateOutcome :=
  .reinstated {
    receiptId := reinstatementReceiptId env target time reason actor
    reinstatedRecordId := target
    reinstatedBy := actor
    reinstatedAt := time
    reason := reason } [.node (reinstatementReceipt env target time actor reason)]

/-- The target of a reinstatement, which must be of a kind that can be retired. -/
def resolveReinstateTarget (handle : String) : Except ReinstateError GraphRecord :=
  match latestLiveRecord records (Liveness.new records) handle with
  | none => .error (.notFound handle)
  | some target =>
      match classifyTarget target with
      | .observation => .ok target
      | .codegraphFact kind => .error (.codegraphFact target.id kind)
      | .nonObservation kind | .unsupported kind => .error (.nonObservationTarget target.id kind)

/-- `reinstate_from_records`. -/
def reinstateFromRecords (request : ReinstateRequest) : Except ReinstateError ReinstateOutcome := do
  let actor := String.ofList (trim request.reinstatedBy.toList)
  if actor = "" then throw .missingActor
  let time ← (resolveTransactionTime env now request.transactionTime).mapError
    fun (value, message) => .invalidTransactionTime value message
  let handle := String.ofList (trim request.handle.toList)
  let target ← resolveReinstateTarget records handle
  match latestReceiptNode env records target.id none with
  | none => throw (.notRetired handle)
  | some node =>
      if node.kind = .retirementReceipt then
        return reinstatement env target.id time actor request.reason
      else return .alreadyActive (reinstateEventFromNode node) []

end Commands

end Egregore
