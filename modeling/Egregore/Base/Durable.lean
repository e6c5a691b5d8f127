import Mathlib.Logic.Relation

/-!
# Durable programs

A program over a durable state makes one state after the other durable and ends with a
result. A crash leaves behind any state it has made durable so far, and a later attempt
starts from there.
-/

namespace Egregore.Base

/-- From a state: the states made durable, oldest first, and the result. -/
def Durable (σ ε α : Type) : Type := σ → List σ × Except ε α

namespace Durable

variable {σ ε α β : Type}

/-- The state a program ends in. -/
def final (program : Durable σ ε α) (state : σ) : σ := (program state).1.getLastD state

protected def bind (program : Durable σ ε α) (next : α → Durable σ ε β) : Durable σ ε β :=
  fun state =>
    match (program state).2 with
    | .error fault => ((program state).1, .error fault)
    | .ok value =>
        ((program state).1 ++ (next value (program.final state)).1,
          (next value (program.final state)).2)

instance : Monad (Durable σ ε) where
  pure value := fun _ => ([], .ok value)
  bind := Durable.bind

/-- Read the state. -/
def state : Durable σ ε σ := fun state => ([], .ok state)

/-- Make a new state durable. -/
def modify (step : σ → σ) : Durable σ ε Unit := fun state => ([step state], .ok ())

/-- Make several states durable, one after the other. -/
def through (trail : σ → List σ) : Durable σ ε Unit := fun state => (trail state, .ok ())

/-- End with an error, or go on. -/
def ofExcept (result : Except ε α) : Durable σ ε α := fun _ => ([], result)

/-! ## Runs -/

/-- An attempt from `state`, stopped anywhere, leaves `left`. -/
def Leaves (program : Durable σ ε α) (state left : σ) : Prop := left ∈ state :: (program state).1

/-- Attempts one after the other, each stopped anywhere. -/
def Attempts (program : Durable σ ε α) : σ → σ → Prop := Relation.ReflTransGen program.Leaves

/-- What every attempt keeps holds of every state left behind. -/
theorem Attempts.invariant {program : Durable σ ε α} {holds : σ → Prop} {start left : σ}
    (attempts : program.Attempts start left) (initially : holds start)
    (kept : ∀ state, holds state → ∀ later ∈ (program state).1, holds later) : holds left := by
  induction attempts with
  | refl => exact initially
  | tail _ leaves invariant =>
      rcases List.mem_cons.mp leaves with rfl | later
      · exact invariant
      · exact kept _ invariant _ later

/-- An attempt cut off after its first `count` durable states. -/
theorem Attempts.single {program : Durable σ ε α} {start left : σ}
    (leaves : left ∈ (program start).1) : program.Attempts start left :=
  Relation.ReflTransGen.single (List.mem_cons_of_mem _ leaves)

/-! ## Steps -/

section Steps

variable (start : σ)

theorem run_pure (value : α) : (pure value : Durable σ ε α) start = ([], .ok value) := rfl

theorem run_state_bind (next : σ → Durable σ ε β) :
    (state >>= next : Durable σ ε β) start = next start start := by
  simp [bind, Durable.bind, state, final]

theorem run_modify_bind (step : σ → σ) (next : Unit → Durable σ ε β) :
    (modify step >>= next : Durable σ ε β) start =
      (step start :: (next () (step start)).1, (next () (step start)).2) := by
  simp [bind, Durable.bind, modify, final]

theorem run_through_bind (trail : σ → List σ) (next : Unit → Durable σ ε β) :
    (through trail >>= next : Durable σ ε β) start =
      (trail start ++ (next () ((trail start).getLastD start)).1,
        (next () ((trail start).getLastD start)).2) := by
  simp [bind, Durable.bind, through, final]

theorem run_ok_bind (value : α) (next : α → Durable σ ε β) :
    (ofExcept (.ok value) >>= next : Durable σ ε β) start = next value start := by
  simp [bind, Durable.bind, ofExcept, final]

theorem run_bind_of_ok {program : Durable σ ε α} {trail : List σ} {value : α}
    (runs : program start = (trail, .ok value)) (next : α → Durable σ ε β) :
    (program >>= next : Durable σ ε β) start =
      (trail ++ (next value (trail.getLastD start)).1, (next value (trail.getLastD start)).2) := by
  simp [bind, Durable.bind, final, runs]

theorem run_bind_of_error {program : Durable σ ε α} {trail : List σ} {fault : ε}
    (runs : program start = (trail, .error fault)) (next : α → Durable σ ε β) :
    (program >>= next : Durable σ ε β) start = (trail, .error fault) := by
  simp [bind, Durable.bind, runs]

theorem run_error_bind (fault : ε) (next : α → Durable σ ε β) :
    (ofExcept (.error fault) >>= next : Durable σ ε β) start = ([], .error fault) := rfl

end Steps

end Durable

end Egregore.Base
