import Egregore.Base.Saturation
import Egregore.MemoryRetire

/-!
# When a retirement takes effect

A receipt changes the recall state of its target exactly when it is not stamped before a receipt
that the store already holds for it. The commands check the present state only, so a back-dated
receipt reports a change that does not happen. `lifecycle_takesEffect_iff` follows a store
through any number of calls, each at its own time.
-/

namespace Egregore

open Base

variable (env : ReceiptEnv)

/-- The superseding record and the evidence handle that a retirement cites. -/
def RetireRequest.cited (request : RetireRequest) : Option String × Option String :=
  match request.reason with
  | .superseded => (trimmedNonEmpty request.supersededBy, none)
  | _ => (none, trimmedNonEmpty request.evidenceHandle)

/-- The transaction time of a receipt, where it is accepted. -/
def givenTime (now : String) : Option String → String
  | none => now
  | some raw => String.ofList (trim raw.toList)

/-- A call of one of the two commands. -/
inductive LifecycleRequest where
  | retire (request : RetireRequest)
  | reinstate (request : ReinstateRequest)

/-- What a successful call returns. -/
inductive LifecycleOutcome where
  | retire (outcome : RetireOutcome)
  | reinstate (outcome : ReinstateOutcome)
  deriving DecidableEq

/-- The records that a call appends. -/
def LifecycleOutcome.records : LifecycleOutcome → List GraphRecord
  | .retire (.retired _ records) | .retire (.alreadyRetired _ records)
  | .reinstate (.reinstated _ records) | .reinstate (.alreadyActive _ records) => records

namespace LifecycleRequest

/-- The ID of the target. -/
def target : LifecycleRequest → String
  | .retire request => String.ofList (trim request.handle.toList)
  | .reinstate request => String.ofList (trim request.handle.toList)

/-- The transaction time that the receipt carries. -/
def time (now : String) (request : LifecycleRequest) : String :=
  match request with
  | .retire request => givenTime now request.transactionTime
  | .reinstate request => givenTime now request.transactionTime

/-- The IDs of the records that the call would append. -/
def newIds (now : String) (request : LifecycleRequest) : List String :=
  match request with
  | .retire retirement =>
      retirementReceiptId env request.target (request.time now) retirement.reason.asStr
          (String.ofList (trim retirement.retiredBy.toList)) retirement.cited.1
          retirement.cited.2 ::
        (retirement.cited.1.map fun superseder =>
          (buildSupersessionEdge env superseder request.target).id).toList
  | .reinstate reinstatement =>
      [reinstatementReceiptId env request.target (request.time now) reinstatement.reason
        (String.ofList (trim reinstatement.reinstatedBy.toList))]

/-- The call, if it succeeds. -/
def attempt (now : String) (records : List GraphRecord) : LifecycleRequest → Option LifecycleOutcome
  | .retire request =>
      match retireFromRecords env now records request with
      | .ok outcome => some (.retire outcome)
      | .error _ => none
  | .reinstate request =>
      match reinstateFromRecords env now records request with
      | .ok outcome => some (.reinstate outcome)
      | .error _ => none

/-- A retirement is attempted by its own function. -/
theorem attempt_retire_iff {env} {now : String} {records : List GraphRecord}
    {request : RetireRequest} {outcome : LifecycleOutcome} :
    (LifecycleRequest.retire request).attempt env now records = some outcome ↔
      ∃ retired, retireFromRecords env now records request = .ok retired ∧
        outcome = .retire retired := by
  rw [attempt]
  cases retireFromRecords env now records request <;> simp [eq_comm]

/-- So is a reinstatement. -/
theorem attempt_reinstate_iff {env} {now : String} {records : List GraphRecord}
    {request : ReinstateRequest} {outcome : LifecycleOutcome} :
    (LifecycleRequest.reinstate request).attempt env now records = some outcome ↔
      ∃ reinstated, reinstateFromRecords env now records request = .ok reinstated ∧
        outcome = .reinstate reinstated := by
  rw [attempt]
  cases reinstateFromRecords env now records request <;> simp [eq_comm]

/-- The outcome finds the target in the requested state. -/
def Already : LifecycleRequest → LifecycleOutcome → Prop
  | .retire _, .retire (.alreadyRetired _ _) => True
  | .reinstate _, .reinstate (.alreadyActive _ _) => True
  | _, _ => False

/-- The target is in the requested state before the call. -/
def Redundant (records : List GraphRecord) (request : LifecycleRequest) : Prop :=
  match request with
  | .retire _ => isRetired env records request.target = true
  | .reinstate _ => isRetired env records request.target = false

/-- No receipt of the target is stamped after the new one, and the new records' hashed IDs are
not the target's. -/
structure InTime (now : String) (records : List GraphRecord) (request : LifecycleRequest) :
    Prop where
  latest : ∀ stored, .node stored ∈ records →
    receiptTarget (.node stored) = some request.target →
      (compare (receiptTime env stored)
        (env.parseFromRfc3339 (request.time now)).toOption).isLE = true
  fresh : ∀ id ∈ request.newIds env now, id ≠ request.target

end LifecycleRequest

/-- One successful call of a run, with the slice it was made on. -/
structure LifecycleCall where
  records : List GraphRecord
  now : String
  request : LifecycleRequest
  outcome : LifecycleOutcome

namespace LifecycleCall

variable (call : LifecycleCall)

/-- The slice with the outcome's records appended. -/
def after : List GraphRecord := call.records ++ call.outcome.records

/-- The call does what its outcome reports. -/
structure TakesEffect : Prop where
  state : match call.outcome with
    | .retire (.retired event _) =>
        (retirementStates env call.after none)[call.request.target]? =
          some (.retired event.receiptId event.reason event.retiredBy event.retiredAt)
    | .reinstate (.reinstated _ _) =>
        (retirementStates env call.after none)[call.request.target]? = some .active
    | _ => True
  settled : ∀ now, ∃ outcome, call.request.attempt env now call.after = some outcome ∧
    call.request.Already outcome ∧ outcome.records = []
  others : ∀ other, other ≠ call.request.target →
    (retirementStates env call.after none)[other]? =
      (retirementStates env call.records none)[other]?

end LifecycleCall

/-- A run of successful calls, each on the slice that the one before left. -/
inductive Lifecycle : List GraphRecord → List LifecycleCall → List GraphRecord → Prop
  | done {records : List GraphRecord} : Lifecycle records [] records
  | call {call : LifecycleCall} {calls : List LifecycleCall} {final : List GraphRecord}
      (performed : call.request.attempt env call.now call.records = some call.outcome)
      (rest : Lifecycle call.after calls final) : Lifecycle call.records (call :: calls) final

section Receipts

variable {env} {records more : List GraphRecord} {target other id : String} {receipt : NodeRecord}

/-- The receipts of a target, as the newest one is looked for. -/
def stampedReceipts (env : ReceiptEnv) (records : List GraphRecord) (target : String) :
    List StampedReceipt :=
  records.zipIdx.filterMap (stampReceiptOf env target none)

/-- The latest receipt is the best of those on the target, by time and position. -/
theorem latestReceiptNode_eq :
    latestReceiptNode env records target none =
      (bestOf receiptOrder (stampedReceipts env records target)).map StampedReceipt.receipt := rfl

/-- The stamped receipts are the receipt nodes on the target, with their times. -/
theorem mem_stampedReceipts {stamped : StampedReceipt} :
    stamped ∈ stampedReceipts env records target ↔
      records[stamped.position]? = some (.node stamped.receipt) ∧
        receiptTarget (.node stamped.receipt) = some target ∧
          stamped.time = receiptTime env stamped.receipt := by
  obtain ⟨time, position, receipt⟩ := stamped
  simp only [stampedReceipts, List.mem_filterMap, Prod.exists, List.mk_mem_zipIdx_iff_getElem?]
  constructor
  · rintro ⟨record, index, found, stamped⟩
    cases record with
    | node node =>
        simp only [stampReceiptOf, Option.ite_none_right_eq_some, Option.some.injEq,
          StampedReceipt.mk.injEq] at stamped
        obtain ⟨⟨names, -⟩, rfl, rfl, rfl⟩ := stamped
        exact ⟨found, names, rfl⟩
    | edge edge => simp [stampReceiptOf] at stamped
    | tombstone tombstone => simp [stampReceiptOf] at stamped
  · rintro ⟨found, names, rfl⟩
    exact ⟨.node receipt, position, found, by simp [stampReceiptOf, names]⟩

/-- Records that are no receipts of the target leave its receipts as they are. -/
theorem stampedReceipts_append_of_others
    (others : ∀ record ∈ more, receiptTarget record ≠ some target) :
    stampedReceipts env (records ++ more) target = stampedReceipts env records target := by
  rw [stampedReceipts, stampedReceipts, List.zipIdx_append, List.filterMap_append]
  have none : (more.zipIdx (0 + records.length)).filterMap (stampReceiptOf env target none) = [] := by
    rw [List.filterMap_eq_nil_iff]
    rintro ⟨record, position⟩ member
    have inMore : record ∈ more := List.fst_mem_of_mem_zipIdx member
    cases record with
    | node node => simp [stampReceiptOf, others _ inMore]
    | edge edge => rfl
    | tombstone tombstone => rfl
  rw [none, List.append_nil]

/-- A new receipt of the target comes last. -/
theorem stampedReceipts_append (names : receiptTarget (.node receipt) = some target)
    (others : ∀ record ∈ more, receiptTarget record ≠ some target) :
    stampedReceipts env (records ++ .node receipt :: more) target =
      stampedReceipts env records target ++
        [⟨receiptTime env receipt, records.length, receipt⟩] := by
  have split : records ++ .node receipt :: more = (records ++ [.node receipt]) ++ more := by simp
  rw [split, stampedReceipts_append_of_others others, stampedReceipts, List.zipIdx_append,
    List.filterMap_append]
  simp [stampReceiptOf, names, stampedReceipts]

/-- A receipt that is not before the stored ones becomes the newest. -/
theorem latestReceiptNode_append (names : receiptTarget (.node receipt) = some target)
    (others : ∀ record ∈ more, receiptTarget record ≠ some target)
    (latest : ∀ stored, .node stored ∈ records → receiptTarget (.node stored) = some target →
      (compare (receiptTime env stored) (receiptTime env receipt)).isLE = true) :
    latestReceiptNode env (records ++ .node receipt :: more) target none = some receipt := by
  rw [latestReceiptNode_eq, stampedReceipts_append names others, bestOf_concat_of_exceeds]
  · rfl
  · rintro ⟨time, position, stored⟩ member
    obtain ⟨found, names', timed⟩ := mem_stampedReceipts.mp member
    obtain rfl : time = receiptTime env stored := timed
    have earlier := (List.getElem?_eq_some_iff.mp found).1
    have notAfter := latest stored (List.mem_of_getElem? found) names'
    rw [Ordering.isLE_iff_eq_lt_or_eq_eq] at notAfter
    rcases notAfter with less | same
    · simp [receiptOrder, compareLex, compareOn, less]
    · simp [receiptOrder, compareLex, compareOn, same, Nat.compare_eq_lt.mpr earlier]

/-- A receipt stamped before a stored one changes nothing. -/
theorem latestReceiptNode_append_of_before (names : receiptTarget (.node receipt) = some target)
    (others : ∀ record ∈ more, receiptTarget record ≠ some target) {stored : NodeRecord}
    (member : .node stored ∈ records) (names' : receiptTarget (.node stored) = some target)
    (before : ¬ (compare (receiptTime env stored) (receiptTime env receipt)).isLE = true) :
    latestReceiptNode env (records ++ .node receipt :: more) target none =
      latestReceiptNode env records target none := by
  obtain ⟨position, found⟩ := List.mem_iff_getElem?.mp member
  have inside : ⟨receiptTime env stored, position, stored⟩ ∈ stampedReceipts env records target :=
    mem_stampedReceipts.mpr ⟨found, names', rfl⟩
  rw [latestReceiptNode_eq, latestReceiptNode_eq, stampedReceipts_append names others,
    bestOf_concat_of_not_exceeds inside]
  rw [Ordering.isLE_iff_ne_gt, not_not] at before
  simp [receiptOrder, compareLex, compareOn, before]

/-- The state that is reported for an ID: that of its newest receipt, if it has one. -/
theorem getElem?_retirementStates :
    (retirementStates env records none)[id]? =
      if ∃ record ∈ records, receiptTarget record = some id then
        some (stateAfter (latestReceiptNode env records id none))
      else none := by
  rw [retirementStates, getElem?_foldl_insert_value]
  simp [Std.ExtTreeSet.mem_toList, mem_foldl_insert, List.mem_filterMap]

end Receipts

section Commands

variable {env} {now : String} {records : List GraphRecord}

/-- A given time is taken as it is written, and the present one otherwise. -/
theorem resolveTransactionTime_ok {value : Option String} {time : String}
    (resolved : resolveTransactionTime env now value = .ok time) :
    time = givenTime now value := by
  cases value with
  | none => exact (Except.ok.inj resolved).symm
  | some raw =>
      simp only [resolveTransactionTime] at resolved
      split at resolved
      · cases resolved
      · split at resolved
        · exact (Except.ok.inj resolved).symm
        · cases resolved

/-- A live record is found under its own ID. -/
theorem latestLiveRecord_id {liveness : Liveness} {id : String} {record : GraphRecord}
    (found : latestLiveRecord records liveness id = some record) : record.id = id := by
  rw [latestLiveRecord, Option.filter_eq_some_iff] at found
  exact of_decide_eq_true (mem_of_lastEvent found.1).2

/-- The checks of a reason return what the request cites. -/
theorem checkRetireReasonGates_ok {target : GraphRecord} {handle : String}
    {request : RetireRequest} {cited : Option String × Option String}
    (passed : checkRetireReasonGates env records target handle request = .ok cited) :
    cited = request.cited := by
  rw [RetireRequest.cited]
  cases reason : request.reason with
  | superseded =>
      simp only [checkRetireReasonGates, reason] at passed
      split at passed
      · cases passed
      · next superseder given =>
          repeat' split at passed
          all_goals first
            | cases passed; done
            | rw [given, ← Except.ok.inj passed]
  | drifted =>
      simp only [checkRetireReasonGates, reason] at passed
      split at passed
      · cases passed
      · next evidence given =>
          repeat' split at passed
          all_goals first
            | cases passed; done
            | rw [given, ← Except.ok.inj passed]
  | contradicted | operatorDecision =>
      simp only [checkRetireReasonGates, reason] at passed
      split at passed
      · next given => rw [given, ← Except.ok.inj passed]
      · next evidence given =>
          split at passed
          · rw [given, ← Except.ok.inj passed]
          · cases passed

/-- The live record of an ID that can be retired. -/
def Retirable (records : List GraphRecord) (id : String) (target : GraphRecord) : Prop :=
  latestLiveRecord records (Liveness.new records) id = some target ∧
    classifyTarget target = .observation

/-- A retirable record has the ID that was asked for. -/
theorem Retirable.id_eq {id : String} {target : GraphRecord}
    (retirable : Retirable records id target) : target.id = id :=
  latestLiveRecord_id retirable.1

/-- A handle resolves to the record that may be retired under it. -/
theorem resolveRetireTarget_eq_ok_iff {handle : String} {target : GraphRecord} :
    resolveRetireTarget records handle = .ok target ↔ Retirable records handle target := by
  simp only [resolveRetireTarget, Retirable]
  cases latestLiveRecord records (Liveness.new records) handle with
  | none => simp
  | some found =>
      by_cases same : found = target
      · subst same
        cases classed : classifyTarget found <;> simp [classed]
      · cases classed : classifyTarget found <;> simp [classed, same]

/-- A reinstatement resolves its handle in the same way. -/
theorem resolveReinstateTarget_eq_ok_iff {handle : String} {target : GraphRecord} :
    resolveReinstateTarget records handle = .ok target ↔ Retirable records handle target := by
  simp only [resolveReinstateTarget, Retirable]
  cases latestLiveRecord records (Liveness.new records) handle with
  | none => simp
  | some found =>
      by_cases same : found = target
      · subst same
        cases classed : classifyTarget found <;> simp [classed]
      · cases classed : classifyTarget found <;> simp [classed, same]

/-- What a successful retirement passes, and what it returns. -/
theorem retireFromRecords_eq_ok_iff {request : RetireRequest} {outcome : RetireOutcome} :
    retireFromRecords env now records request = .ok outcome ↔
      String.ofList (trim request.retiredBy.toList) ≠ "" ∧
      ∃ time, resolveTransactionTime env now request.transactionTime = .ok time ∧
      ∃ target, Retirable records (String.ofList (trim request.handle.toList)) target ∧
        match retirementInForce env records target.id with
        | some node => outcome = .alreadyRetired (retireEventFromNode node) []
        | none => ∃ cited, checkRetireReasonGates env records target
            (String.ofList (trim request.handle.toList)) request = .ok cited ∧
            outcome = retirement env target.id time (String.ofList (trim request.retiredBy.toList))
              request.reason cited.1 cited.2 := by
  rw [retireFromRecords]
  by_cases actor : String.ofList (trim request.retiredBy.toList) = ""
  · simp only [actor]
    constructor
    · intro done
      cases done
    · exact fun passed => absurd rfl passed.1
  · cases resolved : resolveTransactionTime env now request.transactionTime with
    | error fault =>
        simp [actor, bind, Except.bind, Except.mapError]
    | ok time =>
        cases found : resolveRetireTarget records (String.ofList (trim request.handle.toList)) with
        | error fault =>
            have none_ : ∀ target, ¬ Retirable records (String.ofList (trim request.handle.toList))
                target := by
              intro target retirable
              rw [resolveRetireTarget_eq_ok_iff.mpr retirable] at found
              cases found
            simp [actor, none_, bind, Except.bind, Except.mapError, found]
        | ok target =>
            have unique : ∀ other, Retirable records (String.ofList (trim request.handle.toList))
                other ↔ target = other := by
              intro other
              rw [← resolveRetireTarget_eq_ok_iff, found, Except.ok.injEq]
            simp only [actor, unique, bind, Except.bind, Except.mapError, found, if_false, pure,
              Except.pure, ne_eq, not_false_eq_true, true_and, Except.ok.injEq, exists_eq_left']
            cases inForce : retirementInForce env records target.id with
            | some node =>
                simp only [Except.ok.injEq]
                exact eq_comm
            | none =>
                cases gates : checkRetireReasonGates env records target
                    (String.ofList (trim request.handle.toList)) request with
                | error fault => simp
                | ok cited =>
                    simp only [Except.ok.injEq, exists_eq_left']
                    exact eq_comm

/-- What a successful reinstatement passes, and what it returns. -/
theorem reinstateFromRecords_eq_ok_iff {request : ReinstateRequest} {outcome : ReinstateOutcome} :
    reinstateFromRecords env now records request = .ok outcome ↔
      String.ofList (trim request.reinstatedBy.toList) ≠ "" ∧
      ∃ time, resolveTransactionTime env now request.transactionTime = .ok time ∧
      ∃ target, Retirable records (String.ofList (trim request.handle.toList)) target ∧
      ∃ node, latestReceiptNode env records target.id none = some node ∧
        outcome = if node.kind = .retirementReceipt then
            reinstatement env target.id time (String.ofList (trim request.reinstatedBy.toList))
              request.reason
          else .alreadyActive (reinstateEventFromNode node) [] := by
  rw [reinstateFromRecords]
  by_cases actor : String.ofList (trim request.reinstatedBy.toList) = ""
  · simp only [actor]
    constructor
    · intro done
      cases done
    · exact fun ⟨nonempty, _⟩ => absurd rfl nonempty
  · cases resolved : resolveTransactionTime env now request.transactionTime with
    | error fault =>
        simp [actor, bind, Except.bind, Except.mapError]
    | ok time =>
        cases found : resolveReinstateTarget records
            (String.ofList (trim request.handle.toList)) with
        | error fault =>
            have none_ : ∀ target, ¬ Retirable records (String.ofList (trim request.handle.toList))
                target := by
              intro target retirable
              rw [resolveReinstateTarget_eq_ok_iff.mpr retirable] at found
              cases found
            simp [actor, none_, bind, Except.bind, Except.mapError, found]
        | ok target =>
            have unique : ∀ other, Retirable records (String.ofList (trim request.handle.toList))
                other ↔ target = other := by
              intro other
              rw [← resolveReinstateTarget_eq_ok_iff, found, Except.ok.injEq]
            simp only [actor, unique, bind, Except.bind, Except.mapError, found, if_false, pure,
              Except.pure, ne_eq, not_false_eq_true, true_and, Except.ok.injEq, exists_eq_left']
            cases latest : latestReceiptNode env records target.id none with
            | none => simp [throw, throwThe, MonadExceptOf.throw]
            | some node =>
                simp only [Option.some.injEq, exists_eq_left']
                split
                · simp only [Except.ok.injEq]
                  exact eq_comm
                · simp only [Except.ok.injEq]
                  exact eq_comm

/-- The clock's text does not decide whether a transaction time is accepted. -/
theorem resolveTransactionTime_later {value : Option String} {time : String}
    (resolved : resolveTransactionTime env now value = .ok time) (later : String) :
    ∃ time, resolveTransactionTime env later value = .ok time := by
  cases value with
  | none => exact ⟨later, rfl⟩
  | some raw => exact ⟨time, resolved⟩

/-- The latest receipt is a record about the target. -/
theorem exists_of_latestReceiptNode {target : String} {node : NodeRecord}
    (latest : latestReceiptNode env records target none = some node) :
    .node node ∈ records ∧ receiptTarget (.node node) = some target := by
  rw [latestReceiptNode_eq, Option.map_eq_some_iff] at latest
  obtain ⟨stamped, found, rfl⟩ := latest
  obtain ⟨at_position, names, -⟩ := mem_stampedReceipts.mp (isBest_of_bestOf found).mem
  exact ⟨List.mem_of_getElem? at_position, names⟩

/-- The state of an ID is retired by the retirement in force, if there is one. -/
theorem isRetired_eq {target : String} :
    isRetired env records target = (retirementInForce env records target).isSome := by
  rw [isRetired, getElem?_retirementStates, retirementInForce]
  cases latest : latestReceiptNode env records target none with
  | none => split <;> simp_all [stateAfter]
  | some node =>
      have named : ∃ record ∈ records, receiptTarget record = some target :=
        ⟨_, exists_of_latestReceiptNode latest⟩
      rw [if_pos named]
      by_cases kind : node.kind = .retirementReceipt <;> simp [stateAfter, kind, Option.filter]

/-- Without a retirement in force the target is active. -/
theorem stateAfter_of_inForce_none {target : String}
    (inForce : retirementInForce env records target = none) :
    stateAfter (latestReceiptNode env records target none) = .active := by
  rw [retirementInForce] at inForce
  cases latest : latestReceiptNode env records target none with
  | none => rfl
  | some node =>
      rw [latest, Option.filter_eq_none_iff] at inForce
      have kind : node.kind ≠ .retirementReceipt := by simpa using inForce
      simp [stateAfter, kind]

end Commands

section Effect

variable {env} {records more : List GraphRecord} {target : String} {receipt : NodeRecord}

/-- The records that a call appends: a receipt of its target, then edges. -/
structure AppendsReceipt (target : String) (receipt : NodeRecord) (more : List GraphRecord) :
    Prop where
  names : receiptTarget (.node receipt) = some target
  edges : ∀ record ∈ more, ∃ edge, record = .edge edge

namespace AppendsReceipt

variable (env records) (appends : AppendsReceipt target receipt more)
include appends

omit env records in
/-- The records that come with a receipt are no receipts. -/
theorem receiptTarget_more {record : GraphRecord} (member : record ∈ more) :
    receiptTarget record = none := by
  obtain ⟨edge, rfl⟩ := appends.edges record member
  rfl

/-- No other target has a new receipt. -/
theorem states_others {other : String} (differs : other ≠ target) :
    (retirementStates env (records ++ .node receipt :: more) none)[other]? =
      (retirementStates env records none)[other]? := by
  have others : ∀ record ∈ .node receipt :: more, receiptTarget record ≠ some other := by
    intro record member
    rcases List.mem_cons.mp member with rfl | member
    · rw [appends.names]
      exact fun same => differs (Option.some.inj same).symm
    · simp [appends.receiptTarget_more member]
  rw [getElem?_retirementStates, getElem?_retirementStates, latestReceiptNode_eq,
    latestReceiptNode_eq, stampedReceipts_append_of_others others]
  congr 1
  rw [eq_iff_iff]
  constructor
  · rintro ⟨record, member, named⟩
    rcases List.mem_append.mp member with inside | new
    · exact ⟨record, inside, named⟩
    · exact absurd named (others record new)
  · rintro ⟨record, member, named⟩
    exact ⟨record, List.mem_append_left _ member, named⟩

/-- The reported state of the target is that of its newest receipt. -/
theorem states_target :
    (retirementStates env (records ++ .node receipt :: more) none)[target]? =
      some (stateAfter (latestReceiptNode env (records ++ .node receipt :: more) target none)) := by
  rw [getElem?_retirementStates, if_pos ⟨.node receipt, by simp, appends.names⟩]

/-- The target stays what it is under new IDs. -/
theorem retirable {found : GraphRecord}
    (fresh : ∀ record ∈ .node receipt :: more, record.id ≠ target)
    (before : Retirable records target found) :
    Retirable (records ++ .node receipt :: more) target found := by
  have others : ∀ record ∈ GraphRecord.node receipt :: more,
      record.writes target = false ∧ record.deletes target = false := by
    intro record member
    have differs := fresh record member
    rcases List.mem_cons.mp member with rfl | inside
    · simpa [GraphRecord.writes, GraphRecord.deletes] using differs
    · obtain ⟨edge, rfl⟩ := appends.edges record inside
      simpa [GraphRecord.writes, GraphRecord.deletes] using differs
  have unnamed : (GraphRecord.node receipt :: more).filter (fun record => record.id = target) =
      [] := by
    rw [List.filter_eq_nil_iff]
    intro record member
    simpa using fresh record member
  refine ⟨?_, before.2⟩
  have live := before.1
  rw [latestLiveRecord, lastEvent] at live ⊢
  rw [Liveness.deleted_append_of_others others, List.filter_append, unnamed, List.append_nil]
  exact live

/-- A target that is still found is not one of the new records. -/
theorem fresh {found : GraphRecord} (kind : isReceiptKind receipt.kind = true)
    (after : Retirable (records ++ .node receipt :: more) target found) :
    ∀ record ∈ .node receipt :: more, record.id ≠ target := by
  intro record member named
  have last : lastEvent (fun record => record.id = target) (records ++ .node receipt :: more) =
      lastEvent (fun record => record.id = target) (.node receipt :: more) :=
    lastEvent_append_of_exists ⟨record, member, decide_eq_true named⟩
  obtain ⟨live, observation⟩ := after
  rw [latestLiveRecord, last, Option.filter_eq_some_iff] at live
  rcases List.mem_cons.mp (mem_of_lastEvent live.1).1 with rfl | inside
  · simp [classifyTarget, kind] at observation
  · obtain ⟨edge, rfl⟩ := appends.edges found inside
    simp only [classifyTarget] at observation
    split at observation <;> cases observation

/-- A receipt that no stored one is after becomes the newest. -/
theorem newest (latest : ∀ stored, .node stored ∈ records →
      receiptTarget (.node stored) = some target →
        (compare (receiptTime env stored) (receiptTime env receipt)).isLE = true) :
    latestReceiptNode env (records ++ .node receipt :: more) target none = some receipt := by
  refine latestReceiptNode_append appends.names (fun record member => ?_) latest
  simp [appends.receiptTarget_more member]

/-- A receipt that changes the state does so exactly when no stored one is after it. -/
theorem state_iff
    (changes : stateAfter (latestReceiptNode env records target none) ≠ stateAfter (some receipt)) :
    (retirementStates env (records ++ .node receipt :: more) none)[target]? =
        some (stateAfter (some receipt)) ↔
      ∀ stored, .node stored ∈ records → receiptTarget (.node stored) = some target →
        (compare (receiptTime env stored) (receiptTime env receipt)).isLE = true := by
  rw [appends.states_target, Option.some.injEq]
  constructor
  · intro changed stored member names
    by_contra before
    rw [latestReceiptNode_append_of_before appends.names
      (fun record member => by simp [appends.receiptTarget_more member]) member names before]
      at changed
    exact changes changed
  · exact fun latest => by rw [appends.newest env records latest]

end AppendsReceipt

/-- The time of a retirement receipt is the one it was stamped with. -/
@[simp] theorem receiptTime_retirement (time actor : String) (reason : RetireReason)
    (supersededBy evidenceHandle : Option String) :
    receiptTime env (retirementReceipt env target time actor reason supersededBy evidenceHandle) =
      (env.parseFromRfc3339 time).toOption := by
  simp [receiptTime, retirementReceipt, stampReceipt, NodeRecord.field, List.lookup_cons]

/-- So is that of a reinstatement receipt. -/
@[simp] theorem receiptTime_reinstatement (time actor reason : String) :
    receiptTime env (reinstatementReceipt env target time actor reason) =
      (env.parseFromRfc3339 time).toOption := by
  simp [receiptTime, reinstatementReceipt, stampReceipt, NodeRecord.field, List.lookup_cons]

/-- A stamped receipt is about its target. -/
theorem receiptTarget_stampReceipt {kind : NodeKind} (isReceipt : isReceiptKind kind = true)
    (id summary body actor time : String) (links : List EvidenceLink) :
    receiptTarget (.node (stampReceipt id kind summary target body actor time links)) =
      some target := by
  simp [receiptTarget, isReceipt, stampReceipt, NodeRecord.field, List.lookup_cons]

/-- After a retirement receipt the record is retired, with its reason, actor and time. -/
theorem stateAfter_retirement (time actor : String) (reason : RetireReason)
    (supersededBy evidenceHandle : Option String) :
    stateAfter (some (retirementReceipt env target time actor reason supersededBy evidenceHandle)) =
      .retired (retirementReceiptId env target time reason.asStr actor supersededBy evidenceHandle)
        reason.asStr actor time := by
  simp [stateAfter, retireEventFromNode, retirementReceipt, stampReceipt, NodeRecord.field,
    List.lookup_cons]

/-- A retirement appends its receipt, and the supersession it states. -/
theorem appends_retirement (env : ReceiptEnv) (target time actor : String) (reason : RetireReason)
    (supersededBy evidenceHandle : Option String) :
    AppendsReceipt target
      (retirementReceipt env target time actor reason supersededBy evidenceHandle)
      (supersessionEdge env target supersededBy) where
  names := receiptTarget_stampReceipt rfl ..
  edges := by
    intro record member
    rw [supersessionEdge, Option.mem_toList, Option.map_eq_some_iff] at member
    obtain ⟨superseder, -, rfl⟩ := member
    exact ⟨_, rfl⟩

/-- A reinstatement appends its receipt. -/
theorem appends_reinstatement (env : ReceiptEnv) (target time actor reason : String) :
    AppendsReceipt target (reinstatementReceipt env target time actor reason) [] where
  names := receiptTarget_stampReceipt rfl ..
  edges := by simp

/-- The new records carry the IDs that the request determines. -/
theorem forall_newIds_retire {request : RetireRequest} {now : String} {p : String → Prop} :
    (∀ id ∈ (LifecycleRequest.retire request).newIds env now, p id) ↔
      ∀ record ∈ GraphRecord.node (retirementReceipt env (LifecycleRequest.retire request).target
          ((LifecycleRequest.retire request).time now) (String.ofList (trim request.retiredBy.toList))
          request.reason request.cited.1 request.cited.2) ::
        supersessionEdge env (LifecycleRequest.retire request).target request.cited.1,
        p record.id := by
  simp [LifecycleRequest.newIds, supersessionEdge, retirementReceipt, stampReceipt]

/-- The only new ID of a reinstatement is that of its receipt. -/
theorem forall_newIds_reinstate {request : ReinstateRequest} {now : String} {p : String → Prop} :
    (∀ id ∈ (LifecycleRequest.reinstate request).newIds env now, p id) ↔
      ∀ record ∈ [GraphRecord.node (reinstatementReceipt env
          (LifecycleRequest.reinstate request).target
          ((LifecycleRequest.reinstate request).time now)
          (String.ofList (trim request.reinstatedBy.toList)) request.reason)], p record.id := by
  simp [LifecycleRequest.newIds, reinstatementReceipt, stampReceipt]

end Effect

namespace LifecycleCall

variable {env} {call : LifecycleCall}

/-- A retired target stays retired under a repeated retirement. -/
theorem retire_again {records : List GraphRecord} {request : RetireRequest} {time now : String}
    {found : GraphRecord} {node : NodeRecord}
    (actor : String.ofList (trim request.retiredBy.toList) ≠ "")
    (resolved : resolveTransactionTime env now request.transactionTime = .ok time)
    (retirable : Retirable records (LifecycleRequest.retire request).target found)
    (inForce : retirementInForce env records (LifecycleRequest.retire request).target = some node)
    (later : String) :
    ∃ outcome, (LifecycleRequest.retire request).attempt env later records = some outcome ∧
      (LifecycleRequest.retire request).Already outcome ∧ outcome.records = [] := by
  obtain ⟨again, resolved'⟩ := resolveTransactionTime_later resolved later
  refine ⟨.retire (.alreadyRetired (retireEventFromNode node) []), ?_, trivial, rfl⟩
  rw [LifecycleRequest.attempt_retire_iff]
  refine ⟨_, ?_, rfl⟩
  rw [retireFromRecords_eq_ok_iff]
  refine ⟨actor, again, resolved', found, retirable, ?_⟩
  rw [retirable.id_eq, inForce]

/-- An active target stays active under a repeated reinstatement. -/
theorem reinstate_again {records : List GraphRecord} {request : ReinstateRequest}
    {time now : String} {found : GraphRecord} {node : NodeRecord}
    (actor : String.ofList (trim request.reinstatedBy.toList) ≠ "")
    (resolved : resolveTransactionTime env now request.transactionTime = .ok time)
    (retirable : Retirable records (LifecycleRequest.reinstate request).target found)
    (latest : latestReceiptNode env records (LifecycleRequest.reinstate request).target none =
      some node) (kind : node.kind ≠ .retirementReceipt) (later : String) :
    ∃ outcome, (LifecycleRequest.reinstate request).attempt env later records = some outcome ∧
      (LifecycleRequest.reinstate request).Already outcome ∧ outcome.records = [] := by
  obtain ⟨again, resolved'⟩ := resolveTransactionTime_later resolved later
  refine ⟨.reinstate (.alreadyActive (reinstateEventFromNode node) []), ?_, trivial, rfl⟩
  rw [LifecycleRequest.attempt_reinstate_iff]
  refine ⟨_, ?_, rfl⟩
  rw [reinstateFromRecords_eq_ok_iff]
  refine ⟨actor, again, resolved', found, retirable, node, ?_, ?_⟩
  · rw [retirable.id_eq, latest]
  · rw [if_neg kind]

/-- A retirement takes effect exactly when it is redundant or in time. -/
theorem retire_takesEffect_iff {records : List GraphRecord} {now : String}
    {request : RetireRequest} {outcome : LifecycleOutcome}
    (performed : (LifecycleRequest.retire request).attempt env now records = some outcome) :
    (LifecycleCall.mk records now (.retire request) outcome).TakesEffect env ↔
      (LifecycleRequest.retire request).Redundant env records ∨
        (LifecycleRequest.retire request).InTime env now records := by
  obtain ⟨retired, done, rfl⟩ := LifecycleRequest.attempt_retire_iff.mp performed
  obtain ⟨actor, time, resolved, found, retirable, result⟩ := retireFromRecords_eq_ok_iff.mp done
  obtain rfl := resolveTransactionTime_ok resolved
  change Retirable records (LifecycleRequest.retire request).target found at retirable
  rw [retirable.id_eq] at result
  rw [LifecycleRequest.Redundant, isRetired_eq]
  cases inForce : retirementInForce env records (LifecycleRequest.retire request).target with
  | some node =>
      rw [inForce] at result
      subst result
      refine iff_of_true ⟨trivial, ?_, ?_⟩ (Or.inl rfl)
      · simp only [after, LifecycleOutcome.records, List.append_nil]
        exact retire_again actor resolved retirable inForce
      · simp [after, LifecycleOutcome.records]
  | none =>
      rw [inForce] at result
      obtain ⟨cited, passed, rfl⟩ := result
      obtain rfl := checkRetireReasonGates_ok passed
      rw [or_iff_right (by simp)]
      have appends := appends_retirement env (LifecycleRequest.retire request).target
        (givenTime now request.transactionTime) (String.ofList (trim request.retiredBy.toList))
        request.reason request.cited.1 request.cited.2
      have stateIff := appends.state_iff env records
        (by rw [stateAfter_of_inForce_none inForce, stateAfter_retirement]; simp)
      rw [stateAfter_retirement, receiptTime_retirement] at stateIff
      constructor
      · intro effect
        refine ⟨stateIff.mp effect.state, forall_newIds_retire.mpr ?_⟩
        obtain ⟨again, performed', -⟩ := effect.settled now
        obtain ⟨_, done', -⟩ := LifecycleRequest.attempt_retire_iff.mp performed'
        obtain ⟨-, -, -, found', retirable', -⟩ := retireFromRecords_eq_ok_iff.mp done'
        exact appends.fresh records rfl retirable'
      · intro inTime
        have newest := appends.newest env records (by
          rw [receiptTime_retirement]
          exact inTime.latest)
        refine ⟨stateIff.mpr inTime.latest, ?_, fun other => appends.states_others env records⟩
        have retirable' := appends.retirable records (forall_newIds_retire.mp inTime.fresh) retirable
        have inForce' : retirementInForce env _ (LifecycleRequest.retire request).target = some _ :=
          (congrArg _ newest).trans rfl
        exact retire_again actor resolved retirable' inForce'

/-- A reinstatement takes effect exactly when it is redundant or in time. -/
theorem reinstate_takesEffect_iff {records : List GraphRecord} {now : String}
    {request : ReinstateRequest} {outcome : LifecycleOutcome}
    (performed : (LifecycleRequest.reinstate request).attempt env now records = some outcome) :
    (LifecycleCall.mk records now (.reinstate request) outcome).TakesEffect env ↔
      (LifecycleRequest.reinstate request).Redundant env records ∨
        (LifecycleRequest.reinstate request).InTime env now records := by
  obtain ⟨reinstated, done, rfl⟩ := LifecycleRequest.attempt_reinstate_iff.mp performed
  obtain ⟨actor, time, resolved, found, retirable, node, latest, result⟩ :=
    reinstateFromRecords_eq_ok_iff.mp done
  obtain rfl := resolveTransactionTime_ok resolved
  change Retirable records (LifecycleRequest.reinstate request).target found at retirable
  rw [retirable.id_eq] at latest result
  subst result
  by_cases kind : node.kind = .retirementReceipt
  · have retired : ¬ (LifecycleRequest.reinstate request).Redundant env records := by
      rw [LifecycleRequest.Redundant, isRetired_eq, retirementInForce, latest]
      simp [kind]
    rw [or_iff_right retired, if_pos kind]
    have appends := appends_reinstatement env (LifecycleRequest.reinstate request).target
      (givenTime now request.transactionTime) (String.ofList (trim request.reinstatedBy.toList))
      request.reason
    have stateIff := appends.state_iff env records (by simp [latest, stateAfter, kind,
      reinstatementReceipt, stampReceipt])
    rw [receiptTime_reinstatement] at stateIff
    constructor
    · intro effect
      refine ⟨stateIff.mp effect.state, forall_newIds_reinstate.mpr ?_⟩
      obtain ⟨again, performed', -⟩ := effect.settled now
      obtain ⟨_, done', -⟩ := LifecycleRequest.attempt_reinstate_iff.mp performed'
      obtain ⟨-, -, -, found', retirable', -⟩ := reinstateFromRecords_eq_ok_iff.mp done'
      exact appends.fresh records rfl retirable'
    · intro inTime
      have newest := appends.newest env records (by
        rw [receiptTime_reinstatement]
        exact inTime.latest)
      refine ⟨stateIff.mpr inTime.latest, ?_, fun other => appends.states_others env records⟩
      have retirable' := appends.retirable records (forall_newIds_reinstate.mp inTime.fresh)
        retirable
      exact reinstate_again actor resolved retirable' newest
        (by simp [reinstatementReceipt, stampReceipt])
  · have redundant : (LifecycleRequest.reinstate request).Redundant env records := by
      rw [LifecycleRequest.Redundant, isRetired_eq, retirementInForce, latest]
      simp [kind]
    refine iff_of_true ⟨?_, ?_, ?_⟩ (Or.inl redundant)
    · rw [if_neg kind]
      trivial
    · rw [if_neg kind]
      simp only [after, LifecycleOutcome.records, List.append_nil]
      exact reinstate_again actor resolved retirable latest kind
    · rw [if_neg kind]
      simp [after, LifecycleOutcome.records]

/-- A call takes effect exactly when it has nothing to change or its receipt is in time. -/
theorem takesEffect_iff
    (performed : call.request.attempt env call.now call.records = some call.outcome) :
    call.TakesEffect env ↔ call.request.Redundant env call.records ∨
      call.request.InTime env call.now call.records := by
  obtain ⟨records, now, request, outcome⟩ := call
  cases request with
  | retire request => exact retire_takesEffect_iff performed
  | reinstate request => exact reinstate_takesEffect_iff performed

end LifecycleCall

/-- In a run of successful calls, all take effect exactly when each has nothing to change or
appends a receipt that no stored receipt of its target is after. -/
theorem lifecycle_takesEffect_iff {env} {records final : List GraphRecord}
    {calls : List LifecycleCall} (run : Lifecycle env records calls final) :
    (∀ call ∈ calls, call.TakesEffect env) ↔
      ∀ call ∈ calls, call.request.Redundant env call.records ∨
        call.request.InTime env call.now call.records := by
  induction run with
  | done => simp
  | call performed rest ih =>
      rw [List.forall_mem_cons, List.forall_mem_cons, ih,
        LifecycleCall.takesEffect_iff performed]

/-- Instants of two days, and IDs that list their parts. -/
def twoDays : ReceiptEnv where
  parseFromRfc3339 text :=
    if text = "2026-01-01T00:00:00Z" then .ok (toLex (0, 0))
    else if text = "2026-01-02T00:00:00Z" then .ok (toLex (86400, 0))
    else .error "input contains invalid characters"
  agentMemoryStableId parts := "agent_memory:v1:" ++ String.intercalate "/" parts

/-- A belief that is to be retired. -/
def belief : List GraphRecord := [
  .node {
    id := "agent_memory:v1:belief"
    kind := .observation
    schemaVersion := 1 }]

/-- The retirement of the belief on the second day. -/
def retireBelief : RetireRequest where
  handle := "agent_memory:v1:belief"
  reason := .operatorDecision
  retiredBy := "ada"
  transactionTime := some "2026-01-02T00:00:00Z"

/-- Its reinstatement, stamped on the first day. -/
def reinstateBelief : ReinstateRequest where
  handle := "agent_memory:v1:belief"
  reason := "still holds"
  reinstatedBy := "ada"
  transactionTime := some "2026-01-01T00:00:00Z"

/-- The first call: the belief is retired. -/
def retireCall : LifecycleCall where
  records := belief
  now := "2026-01-02T00:00:00Z"
  request := .retire retireBelief
  outcome := .retire (retirement twoDays "agent_memory:v1:belief" "2026-01-02T00:00:00Z" "ada"
    .operatorDecision none none)

/-- The second call: it is reinstated, at an earlier time. -/
def reinstateCall : LifecycleCall where
  records := retireCall.after
  now := "2026-01-02T00:00:00Z"
  request := .reinstate reinstateBelief
  outcome := .reinstate (reinstatement twoDays "agent_memory:v1:belief" "2026-01-01T00:00:00Z"
    "ada" "still holds")

/-- A retirement and a reinstatement that is dated before it make a run. -/
theorem backdated_run :
    Lifecycle twoDays belief [retireCall, reinstateCall] reinstateCall.after := by
  have retired : retireCall.request.attempt twoDays retireCall.now retireCall.records =
      some retireCall.outcome := by decide
  have reinstated : reinstateCall.request.attempt twoDays reinstateCall.now reinstateCall.records =
      some reinstateCall.outcome := by decide
  exact .call retired (.call reinstated .done)

/-- The equivalence at this run. -/
theorem backdated_takesEffect_iff :
    (∀ call ∈ [retireCall, reinstateCall], call.TakesEffect twoDays) ↔
      ∀ call ∈ [retireCall, reinstateCall], call.request.Redundant twoDays call.records ∨
        call.request.InTime twoDays call.now call.records :=
  lifecycle_takesEffect_iff backdated_run

/-- The reinstatement is reported, and the belief stays retired. -/
theorem backdated_not_takesEffect :
    ¬ ∀ records calls final, Lifecycle twoDays records calls final →
      ∀ call ∈ calls, call.TakesEffect twoDays := by
  intro all
  have active : (retirementStates twoDays reinstateCall.after none)["agent_memory:v1:belief"]? =
      some .active := (all _ _ _ backdated_run reinstateCall (by simp)).state
  revert active
  decide

end Egregore
