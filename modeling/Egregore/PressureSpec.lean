import Egregore.Pressure
import Mathlib.Order.Interval.Finset.Nat
import Mathlib.Tactic.Common

/-!
# Recovery of write pressure

The count is the number of writes in flight in every order of the steps, and a set flag over a
count that has come down to the watermark always leaves a thread that has yet to look at the
count or to clear the flag. `pressure_recovers` is over every interleaving of the atomic steps
of any number of threads, by an invariant that counts the threads behind each step.
-/

namespace Egregore

open Base

/-! ## One operation -/

section Operations

variable (now : Nat) (tracker : PressureTracker) (op : PressureOp)

theorem capacity_run : (op.run now tracker).1.capacity = tracker.capacity := by
  cases op <;> rfl

@[simp] theorem recoveryWatermark_run :
    (op.run now tracker).1.recoveryWatermark = tracker.recoveryWatermark := by
  rw [PressureTracker.recoveryWatermark, capacity_run, PressureTracker.recoveryWatermark]

/-- Only the increment and the decrement touch the count. -/
theorem inflight_run :
    (op.run now tracker).1.inflight =
      match op with
      | .addInflight => fetchAddOne tracker.inflight
      | .subInflight => fetchSubOne tracker.inflight
      | _ => tracker.inflight := by
  cases op <;> rfl

end Operations

/-! ## One thread -/

/-- What has to follow an operation after the decrement: who raises the flag looks at the count
later. -/
def PressureOp.AllowedBefore (rest : List PressureOp) : PressureOp → Prop
  | .addInflight => False
  | .subInflight => False
  | .raiseSaturated _ _ => .loadInflight ∈ rest
  | _ => True

/-- The rest of a call whose decrement is made. -/
def Draining : List PressureOp → Prop
  | [] => True
  | op :: rest => op.AllowedBefore rest ∧ Draining rest

/-- What is left of a call, before and after the decrement. -/
def PressureThread.Legal (thread : PressureThread) : Prop :=
  if thread.counted then
    thread.rest = [] ∨ thread.rest = onComplete ∨
      ∃ operation requestId, thread.rest = onRejectAfterRollback operation requestId
  else thread.rest = onEnqueue ∨ Draining thread.rest

/-- A thread that has yet to look at the count or to clear the flag. -/
def PressureThread.Checks (thread : PressureThread) : Prop :=
  .loadInflight ∈ thread.rest ∨ .clearSaturated ∈ thread.rest

/-- Another operation than the two is not what a thread has yet to make. -/
theorem PressureThread.Checks.of_cons {counted counted' : Bool} {op : PressureOp}
    {rest : List PressureOp} (checks : Checks ⟨counted, op :: rest⟩)
    (notLoad : op ≠ .loadInflight) (notClear : op ≠ .clearSaturated) : Checks ⟨counted', rest⟩ :=
  checks.imp (List.mem_of_ne_of_mem notLoad.symm) (List.mem_of_ne_of_mem notClear.symm)

theorem draining_maybeRecover : Draining maybeRecover := ⟨trivial, trivial⟩

theorem draining_onReject (operation requestId : String) :
    Draining (onReject operation requestId) :=
  ⟨trivial, trivial, List.mem_singleton_self _, draining_maybeRecover⟩

/-- The branch of an operation after the decrement drains as well. -/
theorem draining_run {now : Nat} {tracker : PressureTracker} {op : PressureOp}
    {rest : List PressureOp} (draining : Draining (op :: rest)) :
    Draining ((op.run now tracker).2 ++ rest) := by
  obtain ⟨allowed, draining⟩ := draining
  cases op with
  | addInflight => exact allowed.elim
  | subInflight => exact allowed.elim
  | raiseSaturated operation requestId =>
      simp only [PressureOp.run]
      split
      · exact ⟨trivial, trivial, draining⟩
      · exact draining
  | loadInflight =>
      simp only [PressureOp.run]
      split
      · exact ⟨trivial, draining⟩
      · exact draining
  | clearSaturated =>
      simp only [PressureOp.run]
      split
      · exact ⟨trivial, trivial, draining⟩
      · exact draining
  | _ => exact draining

/-- A thread at an operation: it is at its increment, at its decrement, or past both. -/
theorem PressureThread.Legal.cases {counted : Bool} {op : PressureOp} {rest : List PressureOp}
    (legal : Legal ⟨counted, op :: rest⟩) :
    (counted = false ∧ op = .addInflight ∧ rest = []) ∨
      (counted = true ∧ op = .subInflight ∧ Draining rest ∧ .loadInflight ∈ rest) ∨
      (counted = false ∧ Draining (op :: rest)) := by
  cases counted with
  | false =>
      rcases legal with enqueue | draining
      · obtain ⟨rfl, rfl⟩ := List.cons.inj enqueue
        exact .inl ⟨rfl, rfl, rfl⟩
      · exact .inr (.inr ⟨rfl, draining⟩)
  | true =>
      rcases legal with none | complete | ⟨operation, requestId, reject⟩
      · cases none
      · obtain ⟨rfl, rfl⟩ := List.cons.inj complete
        exact .inr (.inl ⟨rfl, rfl, draining_maybeRecover, List.mem_singleton_self _⟩)
      · obtain ⟨rfl, rfl⟩ := List.cons.inj reject
        exact .inr (.inl ⟨rfl, rfl, draining_onReject operation requestId,
          by simp [onReject, maybeRecover]⟩)

/-- Every move leaves the thread inside one of its calls, or between two. -/
theorem PressureThread.Moves.legal {thread next : PressureThread}
    {tracker tracker' : PressureTracker} (moved : thread.Moves tracker next tracker')
    (legal : thread.Legal) : next.Legal := by
  cases moved with
  | enqueue => exact .inl rfl
  | complete => exact .inr (.inl rfl)
  | reject operation requestId => exact .inr (.inr ⟨operation, requestId, rfl⟩)
  | run now counted op rest =>
      rcases legal.cases with ⟨rfl, rfl, rfl⟩ | ⟨rfl, rfl, draining, -⟩ | ⟨rfl, draining⟩
      · exact .inl rfl
      · exact .inr draining
      · have after : op.counts false = false := by
          cases op with
          | addInflight => exact draining.1.elim
          | _ => rfl
        rw [Legal, after]
        exact .inr (draining_run draining)

/-- A thread between its increment and its decrement. -/
def PressureThread.InFlight (thread : PressureThread) : Prop := thread.counted = true

instance : DecidablePred PressureThread.InFlight := fun thread =>
  inferInstanceAs (Decidable (thread.counted = true))

/-- What a move does to the count. -/
theorem PressureThread.Moves.count_cases {thread next : PressureThread}
    {tracker tracker' : PressureTracker} (moved : thread.Moves tracker next tracker')
    (legal : thread.Legal) :
    (¬ thread.InFlight ∧ next.InFlight ∧ tracker'.inflight = fetchAddOne tracker.inflight) ∨
      (thread.InFlight ∧ ¬ next.InFlight ∧ tracker'.inflight = fetchSubOne tracker.inflight) ∨
      ((next.InFlight ↔ thread.InFlight) ∧ tracker'.inflight = tracker.inflight) := by
  cases moved with
  | run now counted op rest =>
      rw [inflight_run]
      rcases legal.cases with ⟨rfl, rfl, rfl⟩ | ⟨rfl, rfl, -, -⟩ | ⟨rfl, draining⟩
      · exact .inl ⟨Bool.false_ne_true, rfl, rfl⟩
      · exact .inr (.inl ⟨rfl, Bool.false_ne_true, rfl⟩)
      · refine .inr (.inr ?_)
        cases op with
        | addInflight => exact draining.1.elim
        | subInflight => exact draining.1.elim
        | _ => exact ⟨Iff.rfl, rfl⟩
  | _ => exact .inr (.inr ⟨Iff.rfl, rfl⟩)

/-- What a move does to the flag: where it is set afterwards, the thread has yet to check, or
has found the count above the watermark, or has changed nothing that matters. -/
theorem PressureThread.Moves.flag_cases {thread next : PressureThread}
    {tracker tracker' : PressureTracker} (moved : thread.Moves tracker next tracker')
    (legal : thread.Legal) (raised : tracker'.saturated = true) :
    next.Checks ∨ tracker.recoveryWatermark < tracker'.inflight ∨
      (tracker.saturated = true ∧ ¬ thread.Checks ∧
        (¬ thread.InFlight ∧ next.InFlight ∨ tracker'.inflight = tracker.inflight)) := by
  cases moved with
  | run now counted op rest =>
      rcases legal.cases with ⟨rfl, rfl, rfl⟩ | ⟨rfl, rfl, -, looks⟩ | ⟨rfl, draining⟩
      · refine .inr (.inr ⟨raised, ?_, .inl ⟨Bool.false_ne_true, rfl⟩⟩)
        simp [Checks]
      · exact .inl (.inl looks)
      · cases op with
        | addInflight => exact draining.1.elim
        | subInflight => exact draining.1.elim
        | raiseSaturated operation requestId =>
            exact .inl (.inl (List.mem_append_right _ draining.1))
        | loadInflight =>
            by_cases drained : tracker.inflight ≤ tracker.recoveryWatermark
            · exact .inl (.inr (by simp [PressureOp.run, drained]))
            · exact .inr (.inl (Nat.lt_of_not_le drained))
        | clearSaturated => cases raised
        | _ =>
            by_cases checks : Checks ⟨false, rest⟩
            · exact .inl (checks.imp (List.mem_append_right _) (List.mem_append_right _))
            · exact .inr (.inr ⟨raised, fun before => checks (before.of_cons nofun nofun), .inr rfl⟩)
  | _ => exact .inr (.inr ⟨raised, by simp [Checks], .inr rfl⟩)

theorem PressureThread.Moves.recoveryWatermark {thread next : PressureThread}
    {tracker tracker' : PressureTracker} (moved : thread.Moves tracker next tracker') :
    tracker'.recoveryWatermark = tracker.recoveryWatermark := by
  cases moved with
  | run now counted op rest => exact recoveryWatermark_run now tracker op
  | _ => rfl

/-! ## All threads -/

section Invariant

variable {Thread : Type} [Fintype Thread] [DecidableEq Thread]

/-- The state of the daemon's threads. -/
abbrev PressureThreads (Thread : Type) : Type := Threads Thread PressureThread PressureTracker

/-- What holds between any two steps. -/
structure PressureInvariant (capacity : Nat) (state : PressureThreads Thread) : Prop where
  watermark : state.shared.recoveryWatermark = capacity / 2
  legal : ∀ thread, (state.locals thread).Legal
  counted : state.shared.inflight = state.count PressureThread.InFlight
  watched : state.shared.saturated = true →
    capacity / 2 < state.shared.inflight ∨ ∃ thread, (state.locals thread).Checks

omit [DecidableEq Thread] in
theorem pressureInvariant_start (capacity : Nat) :
    PressureInvariant capacity (pressureStart Thread capacity) where
  watermark := PressureTracker.recoveryWatermark_new capacity
  legal := fun _ => .inr trivial
  counted := (Threads.count_eq_zero fun _ => Bool.false_ne_true).symm
  watched := nofun

variable {state : PressureThreads Thread} {thread : Thread} {next : PressureThread}
  {shared : PressureTracker} {capacity : Nat}

/-- A step keeps the count: there is always room for one thread more, and who decrements is
counted. -/
theorem PressureInvariant.counted_after (few : Fintype.card Thread ≤ wordMax)
    (invariant : PressureInvariant capacity state)
    (moved : (state.locals thread).Moves state.shared next shared) :
    shared.inflight = (state.after thread next shared).count PressureThread.InFlight := by
  rcases moved.count_cases (invariant.legal thread) with
    ⟨outside, inside, count⟩ | ⟨inside, outside, count⟩ | ⟨stays, count⟩
  · have room := (Threads.count_lt_card outside).trans_le few
    rw [count, invariant.counted, fetchAddOne_eq room,
      Threads.count_after_enters shared outside inside]
  · have fewer := Threads.count_after_leaves shared inside outside
    rw [count, invariant.counted, ← fewer, fetchSubOne_succ]
  · rw [count, invariant.counted, Threads.count_after_stays shared stays]

/-- A step leaves a set flag over a high count or with a thread that has yet to check. -/
theorem PressureInvariant.watched_after (few : Fintype.card Thread ≤ wordMax)
    (invariant : PressureInvariant capacity state)
    (moved : (state.locals thread).Moves state.shared next shared)
    (raised : shared.saturated = true) :
    capacity / 2 < shared.inflight ∨
      ∃ other, ((state.after thread next shared).locals other).Checks := by
  rcases moved.flag_cases (invariant.legal thread) raised with checks | high | ⟨before, idle, count⟩
  · exact .inr ⟨thread, by rwa [Threads.after_locals_self]⟩
  · exact .inl (invariant.watermark ▸ high)
  · rcases invariant.watched before with high | checking
    · left
      rcases count with ⟨outside, inside⟩ | same
      · rw [invariant.counted_after few moved,
          Threads.count_after_enters shared outside inside, ← invariant.counted]
        omega
      · rwa [same]
    · exact .inr (Threads.exists_after checking fun checks => absurd checks idle)

/-- Every step keeps the invariant. -/
theorem PressureInvariant.after (few : Fintype.card Thread ≤ wordMax)
    (invariant : PressureInvariant capacity state)
    (moved : (state.locals thread).Moves state.shared next shared) :
    PressureInvariant capacity (state.after thread next shared) where
  watermark := by rw [Threads.after_shared, moved.recoveryWatermark, invariant.watermark]
  legal := Threads.forall_after invariant.legal (moved.legal (invariant.legal thread))
  counted := invariant.counted_after few moved
  watched := invariant.watched_after few moved

end Invariant

/-! ## Every run -/

/-- What the tracker tells, whatever order the steps fell in. -/
structure PressureRecovers {Thread : Type} [Fintype Thread] (capacity : Nat)
    (state : PressureThreads Thread) : Prop where
  /-- The counter is the number of threads between their increment and their decrement. -/
  counted : state.shared.inflight = state.count PressureThread.InFlight
  /-- With no thread inside a call, a set flag is over a count above half the capacity. -/
  recovers : (∀ thread, (state.locals thread).rest = []) → state.shared.saturated = true →
    capacity / 2 < state.shared.inflight
  /-- Once the queue has drained and the calls have returned, the daemon is idle. -/
  drained : (∀ thread, state.locals thread = .outside) → state.shared.state = .idle

theorem PressureInvariant.recovers {Thread : Type} [Fintype Thread] {capacity : Nat}
    {state : PressureThreads Thread} (invariant : PressureInvariant capacity state) :
    PressureRecovers capacity state := by
  have recovers : (∀ thread, (state.locals thread).rest = []) → state.shared.saturated = true →
      capacity / 2 < state.shared.inflight := by
    intro returned raised
    rcases invariant.watched raised with high | ⟨thread, checks⟩
    · exact high
    · simp [PressureThread.Checks, returned thread] at checks
  refine ⟨invariant.counted, recovers, fun outside => ?_⟩
  have empty : state.shared.inflight = 0 := by
    rw [invariant.counted]
    exact Threads.count_eq_zero fun thread => by
      simp [outside thread, PressureThread.outside, PressureThread.InFlight]
  have clear : state.shared.saturated = false := by
    by_contra raised
    have high := recovers (fun thread => by rw [outside thread]; rfl) (by simpa using raised)
    omega
  simp [PressureTracker.state, clear, empty]

/-- Threads have words of their own as their ids, other than zero. -/
theorem card_le_wordMax {Thread : Type} [Fintype Thread] (ids : Thread ↪ ThreadId) :
    Fintype.card Thread ≤ wordMax := by
  have inside : ∀ thread ∈ Finset.univ, (ids thread).1.toNat ∈ Finset.Icc 1 wordMax := by
    intro thread _
    have bound := (ids thread).1.toNat_lt
    have positive : (ids thread).1.toNat ≠ 0 := fun zero =>
      (ids thread).2 (UInt64.toNat_inj.mp zero)
    rw [Finset.mem_Icc, wordMax]
    omega
  have apart : Set.InjOn (fun thread => (ids thread).1.toNat) (Finset.univ : Finset Thread) := by
    intro thread _ other _ same
    exact ids.injective (Subtype.ext (UInt64.toNat_inj.mp same))
  have counts := Finset.card_le_card_of_injOn _ inside apart
  rwa [Finset.card_univ, Nat.card_Icc, Nat.add_sub_cancel] at counts

/-- Write pressure recovers in every order of the steps of any threads. -/
theorem pressure_recovers {Thread : Type} [Fintype Thread] [DecidableEq Thread]
    (ids : Thread ↪ ThreadId) (capacity : Nat) {state : PressureThreads Thread}
    (run : Threads.Runs PressureThread.Moves (pressureStart Thread capacity) state) :
    PressureRecovers capacity state := by
  have invariant := run.invariant (pressureInvariant_start capacity)
    fun _ _ _ _ invariant moved => PressureInvariant.after (card_le_wordMax ids) invariant moved
  exact invariant.recovers

/-- Two threads, with their ids. -/
def twoThreads : Bool ↪ ThreadId where
  toFun thread := if thread then ⟨2, by decide⟩ else ⟨1, by decide⟩
  inj' first second same := by
    cases first <;> cases second <;>
      first | rfl | exact absurd (congrArg Subtype.val same) (by decide)

/-- One thread is in flight and the other is rejected: the flag stays, over a count above half
the capacity. -/
theorem pressure_recovers_rejected : ∃ state : PressureThreads Bool,
    state.shared.saturated = true ∧ state.shared.inflight = 1 ∧ PressureRecovers 1 state := by
  have admitted : Threads.Runs PressureThread.Moves (pressureStart Bool 1) _ :=
    ((Relation.ReflTransGen.refl.tail (.move true .enqueue)).tail
      (.move true (.run 0 false .addInflight [])))
  have called := ((admitted.tail (.move false .enqueue)).tail
    (.move false (.run 0 false .addInflight []))).tail (.move false (.reject "records/ingest" "r"))
  have counted := ((called.tail (.move false (.run 0 true .subInflight _))).tail
    (.move false (.run 0 false .addRejection _))).tail
      (.move false (.run 0 false .storeLastSaturated _))
  have raised := counted.tail
    (.move false (.run 0 false (.raiseSaturated "records/ingest" "r") _))
  have recorded := (raised.tail (.move false (.run 0 false .addSaturationTransition _))).tail
    (.move false (.run 0 false
      (.recordTransition "entered_saturation" "records/ingest" "queue_full" "r") _))
  have returned := recorded.tail (.move false (.run 0 false .loadInflight []))
  exact ⟨_, rfl, rfl, pressure_recovers twoThreads 1 returned⟩

end Egregore
