import Egregore.Base.Text
import Egregore.Base.Threads

/-!
# Write pressure

`daemon.rs`: the count of the writes in flight and the flag of a saturated queue. Every atomic
operation is a step of its own, and between two of them other threads run; all of them are
`SeqCst`, so that one order of the steps is what every thread sees.
-/

namespace Egregore

open Base

/-! ## The tracker -/

/-- `PRESSURE_EVENT_CAPACITY`. -/
def pressureEventCapacity : Nat := 32

/-- `PRESSURE_REQUEST_HANDLE_MAX_BYTES`. -/
def pressureRequestHandleMaxBytes : Nat := 64

/-- The loop of `truncate_request_handle`: what is before the last character boundary that is
at most `offset`. -/
def beforeBoundary (text : List Char) : Nat → List Char
  | 0 => []
  | offset + 1 =>
      match splitAtByte (offset + 1) text with
      | some (before, _) => before
      | none => beforeBoundary text offset

/-- `truncate_request_handle`. -/
def truncateRequestHandle (requestId : String) : String :=
  if byteLength requestId.toList ≤ pressureRequestHandleMaxBytes then requestId
  else String.ofList (beforeBoundary requestId.toList pressureRequestHandleMaxBytes ++ ['…'])

/-- `PressureState`. -/
inductive PressureState where
  | idle | busy | saturated
  deriving DecidableEq, Repr

/-- `PressureEvent`. -/
structure PressureEvent where
  atUnixMs : Nat
  transition : String
  operation : String
  code : String
  requestId : String
  deriving DecidableEq, Repr

/-- `PressureTracker`; the counts are words of 64 bits. -/
structure PressureTracker where
  capacity : Nat
  inflight : Nat
  saturated : Bool
  totalRejections : Nat
  saturationTransitions : Nat
  lastSaturatedAtUnixMs : Nat
  lastRecoveredAtUnixMs : Nat
  events : List PressureEvent
  deriving DecidableEq, Repr

/-- `usize::MAX` and `u64::MAX`. -/
def wordMax : Nat := 2 ^ 64 - 1

/-- `fetch_add` of one, which wraps. -/
def fetchAddOne (count : Nat) : Nat := if count = wordMax then 0 else count + 1

/-- `fetch_sub` of one, which wraps. -/
def fetchSubOne (count : Nat) : Nat := if count = 0 then wordMax else count - 1

theorem fetchAddOne_eq {count : Nat} (room : count < wordMax) : fetchAddOne count = count + 1 :=
  if_neg room.ne

@[simp] theorem fetchSubOne_succ (count : Nat) : fetchSubOne (count + 1) = count :=
  if_neg (Nat.succ_ne_zero count)

namespace PressureTracker

/-- `PressureTracker::new`. -/
def new (capacity : Nat) : PressureTracker where
  capacity := max capacity 1
  inflight := 0
  saturated := false
  totalRejections := 0
  saturationTransitions := 0
  lastSaturatedAtUnixMs := 0
  lastRecoveredAtUnixMs := 0
  events := []

/-- `recovery_watermark`. -/
def recoveryWatermark (tracker : PressureTracker) : Nat := tracker.capacity / 2

theorem recoveryWatermark_new (capacity : Nat) :
    (new capacity).recoveryWatermark = capacity / 2 := by
  change max capacity 1 / 2 = capacity / 2
  omega

/-- `PressureTracker::state`. -/
def state (tracker : PressureTracker) : PressureState :=
  if tracker.saturated then .saturated
  else if tracker.inflight > 0 then .busy
  else .idle

/-- `record_transition`: the push, under the lock of the events. -/
def recordTransition (tracker : PressureTracker) (now : Nat)
    (transition operation code requestId : String) : PressureTracker :=
  let event : PressureEvent :=
    { atUnixMs := now,
      transition := transition,
      operation := operation,
      code := code,
      requestId := truncateRequestHandle requestId }
  { tracker with
    events :=
      (if tracker.events.length ≥ pressureEventCapacity then tracker.events.tail
        else tracker.events) ++ [event] }

end PressureTracker

/-! ## The calls -/

/-- The atomic operations on a tracker. -/
inductive PressureOp where
  | addInflight
  | subInflight
  | addRejection
  | storeLastSaturated
  | raiseSaturated (operation requestId : String)
  | addSaturationTransition
  | loadInflight
  | clearSaturated
  | storeLastRecovered
  | recordTransition (transition operation code requestId : String)
  deriving DecidableEq, Repr

/-- What an operation makes of the tracker at the instant it reads, and the operations of the
branch that it decides. -/
def PressureOp.run (now : Nat) (tracker : PressureTracker) :
    PressureOp → PressureTracker × List PressureOp
  | .addInflight => ({ tracker with inflight := fetchAddOne tracker.inflight }, [])
  | .subInflight => ({ tracker with inflight := fetchSubOne tracker.inflight }, [])
  | .addRejection => ({ tracker with totalRejections := fetchAddOne tracker.totalRejections }, [])
  | .storeLastSaturated => ({ tracker with lastSaturatedAtUnixMs := now }, [])
  | .raiseSaturated operation requestId =>
      ({ tracker with saturated := true },
        -- The swap returns the old flag: only the first rejection enters saturation.
        if !tracker.saturated then
          [.addSaturationTransition,
            .recordTransition "entered_saturation" operation "queue_full" requestId]
        else [])
  | .addSaturationTransition =>
      ({ tracker with saturationTransitions := fetchAddOne tracker.saturationTransitions }, [])
  | .loadInflight =>
      (tracker, if tracker.inflight ≤ tracker.recoveryWatermark then [.clearSaturated] else [])
  | .clearSaturated =>
      ({ tracker with saturated := false },
        if tracker.saturated then
          [.storeLastRecovered,
            .recordTransition "exited_saturation" "write_worker" "queue_full" "drain"]
        else [])
  | .storeLastRecovered => ({ tracker with lastRecoveredAtUnixMs := now }, [])
  | .recordTransition transition operation code requestId =>
      (tracker.recordTransition now transition operation code requestId, [])

/-- `on_enqueue`. -/
def onEnqueue : List PressureOp := [.addInflight]

/-- `rollback_enqueue`. -/
def rollbackEnqueue : List PressureOp := [.subInflight]

/-- `maybe_recover`: the swap is made only when the load is at most the watermark. -/
def maybeRecover : List PressureOp := [.loadInflight]

/-- `on_complete`. -/
def onComplete : List PressureOp := .subInflight :: maybeRecover

/-- `on_reject`. -/
def onReject (operation requestId : String) : List PressureOp :=
  [.addRejection, .storeLastSaturated, .raiseSaturated operation requestId] ++ maybeRecover

/-- `on_reject_after_rollback`. -/
def onRejectAfterRollback (operation requestId : String) : List PressureOp :=
  rollbackEnqueue ++ onReject operation requestId

/-! ## The threads -/

/-- A thread that makes the calls: whether it is between its increment and its decrement, and
what is left of the call that it is inside. -/
structure PressureThread where
  counted : Bool
  rest : List PressureOp
  deriving DecidableEq, Repr

/-- A thread that has not called yet, or has finished. -/
def PressureThread.outside : PressureThread where
  counted := false
  rest := []

/-- An operation moves its thread past the increment or the decrement. -/
def PressureOp.counts : PressureOp → Bool → Bool
  | .addInflight, _ => true
  | .subInflight, _ => false
  | _, counted => counted

/-- A move of one thread: it enters `on_enqueue`, then exactly one of `on_complete` and
`on_reject_after_rollback`; inside a call it makes the next operation. The clock may show any
instant. -/
inductive PressureThread.Moves :
    PressureThread → PressureTracker → PressureThread → PressureTracker → Prop where
  | enqueue {tracker : PressureTracker} : Moves ⟨false, []⟩ tracker ⟨false, onEnqueue⟩ tracker
  | complete {tracker : PressureTracker} : Moves ⟨true, []⟩ tracker ⟨true, onComplete⟩ tracker
  | reject {tracker : PressureTracker} (operation requestId : String) :
      Moves ⟨true, []⟩ tracker ⟨true, onRejectAfterRollback operation requestId⟩ tracker
  | run {tracker : PressureTracker} (now : Nat) (counted : Bool) (op : PressureOp)
      (rest : List PressureOp) :
      Moves ⟨counted, op :: rest⟩ tracker
        ⟨op.counts counted, (op.run now tracker).2 ++ rest⟩ (op.run now tracker).1

/-- `std::thread::ThreadId`: a `NonZeroU64`, and no two threads of a process have the same. -/
def ThreadId : Type := { value : UInt64 // value ≠ 0 }

/-- The threads at the start of the daemon, with a new tracker. -/
def pressureStart (Thread : Type) (capacity : Nat) :
    Threads Thread PressureThread PressureTracker where
  locals := fun _ => .outside
  shared := .new capacity

end Egregore
