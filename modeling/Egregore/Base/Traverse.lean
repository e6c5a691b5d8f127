import Mathlib.Data.List.Forall2
import Mathlib.Tactic.Common

/-!
# Maps and folds over a list

What `mapM` in `Except` says of each item: all of them succeeded, or one failed. What a fold keeps,
and what one of its steps brings about. `forall₂_of_mapM_ok` relates items and values in turn, and
the membership lemmas follow from it.
-/

namespace Egregore.Base

variable {α β ε : Type} {f : α → Except ε β} {items : List α}

/-- What is related in turn has a partner for each item. -/
theorem exists_of_forall₂ {γ δ : Type*} {R : γ → δ → Prop} {left : List γ} {right : List δ}
    (turns : List.Forall₂ R left right) {item : γ} (member : item ∈ left) :
    ∃ value ∈ right, R item value := by
  induction turns with
  | nil => cases member
  | cons first _ ih =>
      rcases List.mem_cons.mp member with rfl | later
      · exact ⟨_, List.mem_cons_self, first⟩
      · obtain ⟨value, inside, related⟩ := ih later
        exact ⟨value, List.mem_cons_of_mem _ inside, related⟩

/-- Items that are apart have partners that are, where no two items share one. -/
theorem nodup_of_forall₂ {γ δ : Type*} {R : γ → δ → Prop} {left : List γ} {right : List δ}
    (turns : List.Forall₂ R left right) (distinct : left.Nodup)
    (apart : ∀ item other value, R item value → R other value → item = other) : right.Nodup := by
  induction turns with
  | nil => exact List.nodup_nil
  | cons first turns ih =>
      obtain ⟨absent, distinct⟩ := List.nodup_cons.mp distinct
      refine List.nodup_cons.mpr ⟨fun member => ?_, ih distinct⟩
      obtain ⟨other, inside, related⟩ := exists_of_forall₂ turns.flip member
      exact absent (apart _ _ _ first related ▸ inside)

/-- A map that went through took every item to its value. -/
theorem forall₂_of_mapM_ok {values : List β} (mapped : items.mapM f = .ok values) :
    List.Forall₂ (fun item value => f item = .ok value) items values := by
  induction items generalizing values with
  | nil =>
      cases mapped
      exact .nil
  | cons item items ih =>
      rw [List.mapM_cons] at mapped
      cases first : f item with
      | error failure => simp [first, bind, Except.bind] at mapped
      | ok value =>
          cases rest : items.mapM f with
          | error failure => simp [first, rest, bind, Except.bind] at mapped
          | ok others =>
              simp only [first, rest, bind, Except.bind, pure, Except.pure,
                Except.ok.injEq] at mapped
              subst mapped
              exact .cons first (ih rest)

/-- The values of a map that went through are those that its items have. -/
theorem eq_filterMap_of_mapM_ok {values : List β} (mapped : items.mapM f = .ok values) :
    values = items.filterMap fun item => (f item).toOption := by
  have turns := forall₂_of_mapM_ok mapped
  clear mapped
  induction turns with
  | nil => rfl
  | cons first _ ih => simpa [first, Except.toOption] using ih

theorem mem_of_mapM_ok {values : List β} (mapped : items.mapM f = .ok values) (value : β) :
    value ∈ values ↔ ∃ item ∈ items, f item = .ok value := by
  have turns := forall₂_of_mapM_ok mapped
  clear mapped
  induction turns with
  | nil => simp
  | cons first _ ih => simp [ih, first, eq_comm]

theorem exists_of_mapM_ok {values : List β} (mapped : items.mapM f = .ok values) {item : α}
    (member : item ∈ items) : ∃ value ∈ values, f item = .ok value :=
  exists_of_forall₂ (forall₂_of_mapM_ok mapped) member

/-- A failed map failed at one of its items. -/
theorem exists_of_mapM_error {failure : ε} (mapped : items.mapM f = .error failure) :
    ∃ item ∈ items, f item = .error failure := by
  induction items with
  | nil => cases mapped
  | cons item items ih =>
      rw [List.mapM_cons] at mapped
      cases first : f item with
      | error failure' =>
          simp only [first, bind, Except.bind, Except.error.injEq] at mapped
          subst mapped
          exact ⟨item, List.mem_cons_self, first⟩
      | ok value =>
          cases rest : items.mapM f with
          | error failure' =>
              simp only [first, rest, bind, Except.bind, Except.error.injEq] at mapped
              subst mapped
              obtain ⟨other, member, failed⟩ := ih rest
              exact ⟨other, List.mem_cons_of_mem _ member, failed⟩
          | ok others => simp [first, rest, bind, Except.bind, pure, Except.pure] at mapped

/-- A map whose items all have values goes through. -/
theorem exists_mapM_ok (succeeds : ∀ item ∈ items, ∃ value, f item = .ok value) :
    ∃ values, items.mapM f = .ok values := by
  cases mapped : items.mapM f with
  | ok values => exact ⟨values, rfl⟩
  | error failure =>
      obtain ⟨item, member, failed⟩ := exists_of_mapM_error mapped
      obtain ⟨value, made⟩ := succeeds item member
      rw [failed] at made
      cases made

section Options

variable {g : α → Option β}

/-- A map that may stop goes through exactly if it takes every item to its value. -/
theorem mapM_eq_some_iff {values : List β} :
    items.mapM g = some values ↔
      List.Forall₂ (fun item value => g item = some value) items values := by
  induction items generalizing values with
  | nil => simp [eq_comm]
  | cons item rest ih =>
      rw [List.mapM_cons, List.forall₂_cons_left_iff]
      simp only [Option.bind_eq_bind, Option.bind_eq_some_iff, Option.pure_def, Option.some.injEq,
        ih]
      constructor
      · rintro ⟨value, made, others, turns, rfl⟩
        exact ⟨value, others, made, turns, rfl⟩
      · rintro ⟨value, others, made, turns, rfl⟩
        exact ⟨value, made, others, turns, rfl⟩

/-- A map whose items all have values goes through. -/
theorem exists_mapM_some (succeeds : ∀ item ∈ items, ∃ value, g item = some value) :
    ∃ values, items.mapM g = some values := by
  simp only [mapM_eq_some_iff]
  induction items with
  | nil => exact ⟨[], .nil⟩
  | cons item rest ih =>
      obtain ⟨value, made⟩ := succeeds item List.mem_cons_self
      obtain ⟨others, turns⟩ := ih fun other member => succeeds other (List.mem_cons_of_mem _ member)
      exact ⟨value :: others, .cons made turns⟩

end Options

/-- Collect what a fallible visit of each item yields. -/
def collectM (visit : α → Except ε (Option β)) : List α → Except ε (List β)
  | [] => .ok []
  | item :: rest => do
      let found ← visit item
      let others ← collectM visit rest
      return found.toList ++ others

/-- Visits that do not fail collect what they find. -/
theorem collectM_eq_ok {visit : α → Except ε (Option β)} {found : α → Option β} {items : List α}
    (visits : ∀ item ∈ items, visit item = .ok (found item)) :
    collectM visit items = .ok (items.filterMap found) := by
  induction items with
  | nil => rfl
  | cons item rest ih =>
      rw [collectM, visits item List.mem_cons_self,
        ih fun other member => visits other (List.mem_cons_of_mem _ member), List.filterMap_cons]
      cases found item <;> rfl

/-- What is found under distinct keys is named by distinct keys. -/
theorem nodup_map_filterMap {κ : Type} {key : α → κ} {name : β → κ} {found : α → Option β}
    {items : List α} (distinct : (items.map key).Nodup)
    (named : ∀ item ∈ items, ∀ value, found item = some value → name value = key item) :
    ((items.filterMap found).map name).Nodup := by
  induction items with
  | nil => exact List.nodup_nil
  | cons item rest ih =>
      rw [List.map_cons, List.nodup_cons] at distinct
      have tail := ih distinct.2 fun other member => named other (List.mem_cons_of_mem _ member)
      rw [List.filterMap_cons]
      cases first : found item with
      | none => exact tail
      | some value =>
          rw [List.map_cons, List.nodup_cons, named item List.mem_cons_self value first]
          refine ⟨fun repeated => ?_, tail⟩
          obtain ⟨other, inside, same⟩ := List.mem_map.mp repeated
          obtain ⟨origin, member, made⟩ := List.mem_filterMap.mp inside
          rw [named origin (List.mem_cons_of_mem _ member) other made] at same
          exact distinct.1 (same ▸ List.mem_map_of_mem member)

section Folds

variable {σ κ : Type*} {step : σ → κ → σ} {P : σ → Prop}

/-- What every step keeps, a fold keeps. -/
theorem foldl_keeps (keeps : ∀ state item, P state → P (step state item)) (items : List κ)
    {state : σ} (holds : P state) : P (items.foldl step state) := by
  induction items generalizing state with
  | nil => exact holds
  | cons item items ih => exact ih (keeps state item holds)

/-- What every step keeps, and one of the steps brings about, holds in the end. -/
theorem foldl_of_mem (keeps : ∀ state item, P state → P (step state item)) {items : List κ}
    {item : κ} (member : item ∈ items) (brings : ∀ state, P (step state item)) (state : σ) :
    P (items.foldl step state) := by
  induction items generalizing state with
  | nil => cases member
  | cons first items ih =>
      rw [List.foldl_cons]
      rcases List.mem_cons.mp member with rfl | later
      · exact foldl_keeps keeps items (brings state)
      · exact ih later (step state first)

end Folds

end Egregore.Base
