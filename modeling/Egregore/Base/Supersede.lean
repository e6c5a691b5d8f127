import Mathlib.Data.List.Basic
import Mathlib.Tactic.Common

/-!
# Supersession by set differences

A resource is delivered again and again. Each delivery derives artifacts and drops those kept
from before that it no longer derives; a delivery that retracts also marks what it drops. The
marks of a batch apply after everything that the batch derives.
-/

namespace Egregore.Base

/-- A delivery: the artifacts it derives, and whether it retracts those that it drops. -/
structure Derivation (α : Type*) where
  artifacts : List α
  retracts : Bool

variable {α : Type*} {retracts : Bool} {artifact : α} {kept : List α}

/-- What is kept after some deliveries: the artifacts of the last one. -/
def keptAfter (kept : List α) (deliveries : List (Derivation α)) : List α :=
  deliveries.foldl (fun _ delivery => delivery.artifacts) kept

/-- Some delivery drops an artifact, and retracts it or not. -/
def Dropped (retracts : Bool) (artifact : α) : List α → List (Derivation α) → Prop
  | _, [] => False
  | kept, delivery :: rest =>
      (delivery.retracts = retracts ∧ artifact ∈ kept ∧ artifact ∉ delivery.artifacts) ∨
        Dropped retracts artifact delivery.artifacts rest

/-- An artifact is kept from before, or some delivery derives it. -/
def Seen (artifact : α) (kept : List α) (deliveries : List (Derivation α)) : Prop :=
  artifact ∈ kept ∨ ∃ delivery ∈ deliveries, artifact ∈ delivery.artifacts

@[simp] theorem keptAfter_nil : keptAfter kept [] = kept := rfl

@[simp] theorem keptAfter_cons (delivery : Derivation α) (rest : List (Derivation α)) :
    keptAfter kept (delivery :: rest) = keptAfter delivery.artifacts rest :=
  rfl

theorem keptAfter_append (deliveries rest : List (Derivation α)) :
    keptAfter kept (deliveries ++ rest) = keptAfter (keptAfter kept deliveries) rest :=
  List.foldl_append

@[simp] theorem dropped_nil : ¬ Dropped retracts artifact kept [] := id

theorem dropped_singleton {delivery : Derivation α} :
    Dropped retracts artifact kept [delivery] ↔
      delivery.retracts = retracts ∧ artifact ∈ kept ∧ artifact ∉ delivery.artifacts := by
  rw [Dropped]
  simp

theorem dropped_append (deliveries rest : List (Derivation α)) :
    Dropped retracts artifact kept (deliveries ++ rest) ↔
      Dropped retracts artifact kept deliveries ∨
        Dropped retracts artifact (keptAfter kept deliveries) rest := by
  induction deliveries generalizing kept with
  | nil => simp
  | cons delivery deliveries ih =>
      rw [List.cons_append, Dropped, Dropped, ih, keptAfter_cons, or_assoc]

@[simp] theorem seen_nil : Seen artifact kept [] ↔ artifact ∈ kept := by
  simp [Seen]

theorem seen_append (deliveries rest : List (Derivation α)) :
    Seen artifact kept (deliveries ++ rest) ↔
      Seen artifact kept deliveries ∨ ∃ delivery ∈ rest, artifact ∈ delivery.artifacts := by
  simp only [Seen, List.mem_append, or_and_right, exists_or, or_assoc]

/-- An artifact that is seen is kept to the end, or some delivery drops it. -/
theorem seen_iff {deliveries : List (Derivation α)} :
    Seen artifact kept deliveries ↔
      artifact ∈ keptAfter kept deliveries ∨ ∃ retracts, Dropped retracts artifact kept deliveries := by
  induction deliveries generalizing kept with
  | nil => simp
  | cons delivery rest ih =>
      have tail : (∃ retracts, Dropped retracts artifact kept (delivery :: rest)) ↔
          (artifact ∈ kept ∧ artifact ∉ delivery.artifacts) ∨
            ∃ retracts, Dropped retracts artifact delivery.artifacts rest := by
        simp only [Dropped, exists_or, exists_eq_left']
      rw [keptAfter_cons, tail, or_left_comm, ← ih]
      simp only [Seen, List.mem_cons, exists_eq_or_imp]
      tauto

/-- Nothing that is kept in the end is retracted on the way, and nothing is left behind: what a
delivery drops without retracting it is kept in the end or retracted by another one. -/
structure Reconciled (kept : List α) (deliveries : List (Derivation α)) : Prop where
  noneReturns : ∀ artifact ∈ keptAfter kept deliveries, ¬ Dropped true artifact kept deliveries
  noneLeft : ∀ artifact, Dropped false artifact kept deliveries →
    artifact ∈ keptAfter kept deliveries ∨ Dropped true artifact kept deliveries

/-- What survives the retractions is what is kept, exactly when the deliveries are settled. -/
theorem reconciled_iff {deliveries : List (Derivation α)} :
    Reconciled kept deliveries ↔
      ∀ artifact, Seen artifact kept deliveries ∧ ¬ Dropped true artifact kept deliveries ↔
        artifact ∈ keptAfter kept deliveries := by
  constructor
  · intro settled artifact
    constructor
    · rintro ⟨seen, standing⟩
      rcases seen_iff.mp seen with last | ⟨retracts, dropped⟩
      · exact last
      · cases retracts with
        | true => exact absurd dropped standing
        | false => exact (settled.noneLeft artifact dropped).resolve_right standing
    · intro last
      exact ⟨seen_iff.mpr (Or.inl last), settled.noneReturns artifact last⟩
  · intro survives
    refine ⟨fun artifact last => ((survives artifact).mpr last).2, fun artifact dropped => ?_⟩
    by_cases retracted : Dropped true artifact kept deliveries
    · exact Or.inr retracted
    · exact Or.inl ((survives artifact).mp ⟨seen_iff.mpr (Or.inr ⟨false, dropped⟩), retracted⟩)

@[simp] theorem reconciled_nil : Reconciled kept [] :=
  ⟨fun _ _ => dropped_nil, fun _ dropped => absurd dropped dropped_nil⟩

/-- One delivery that retracts is settled. -/
theorem reconciled_singleton {delivery : Derivation α} (retracts : delivery.retracts = true) :
    Reconciled kept [delivery] where
  noneReturns artifact last := by
    rw [dropped_singleton]
    rintro ⟨-, -, dropped⟩
    exact dropped last
  noneLeft artifact := by
    rw [dropped_singleton, retracts]
    rintro ⟨silent, -⟩
    cases silent

end Egregore.Base
