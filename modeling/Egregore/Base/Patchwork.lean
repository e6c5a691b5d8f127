import Mathlib.Data.List.Infix
import Mathlib.Tactic.Common

/-!
# Patchwork

A text in which parts have been replaced by one placeholder, together with what stood in their
place. A further replacement that begins or ends inside no placeholder merges whole parts.
`exists_parts` cuts the work where its text is cut, and `exists_middle` does at both ends of a
part.
-/

namespace Egregore.Base

variable {α : Type*} {placeholder before inside after rest : List α}

section Parts

/-- A symbol that was kept, or a part that was replaced. -/
inductive Patch (α : Type*) where
  | kept (symbol : α)
  | replaced (text : List α)
  deriving DecidableEq, Repr

/-- What stood there. -/
def Patch.original : Patch α → List α
  | kept symbol => [symbol]
  | replaced text => text

/-- What stands there. -/
def Patch.rendered (placeholder : List α) : Patch α → List α
  | kept symbol => [symbol]
  | replaced _ => placeholder

/-- The text as it was. -/
def original (work : List (Patch α)) : List α := work.flatMap Patch.original

/-- The text as it is. -/
def rendered (placeholder : List α) (work : List (Patch α)) : List α :=
  work.flatMap (Patch.rendered placeholder)

@[simp] theorem original_append (left right : List (Patch α)) :
    original (left ++ right) = original left ++ original right :=
  List.flatMap_append

@[simp] theorem rendered_append (left right : List (Patch α)) :
    rendered placeholder (left ++ right) =
      rendered placeholder left ++ rendered placeholder right :=
  List.flatMap_append

@[simp] theorem rendered_cons (patch : Patch α) (work : List (Patch α)) :
    rendered placeholder (patch :: work) =
      patch.rendered placeholder ++ rendered placeholder work :=
  rfl

/-- A text of which nothing was replaced. -/
def untouched (text : List α) : List (Patch α) := text.map .kept

@[simp] theorem original_untouched (text : List α) : original (untouched text) = text := by
  simp [original, untouched, List.flatMap_map, Patch.original]

@[simp] theorem rendered_untouched (text : List α) :
    rendered placeholder (untouched text) = text := by
  simp [rendered, untouched, List.flatMap_map, Patch.rendered]

/-- The patchwork after its middle was replaced as a whole. -/
def replaceMiddle (left middle right : List (Patch α)) : List (Patch α) :=
  left ++ .replaced (original middle) :: right

@[simp] theorem original_replaceMiddle (left middle right : List (Patch α)) :
    original (replaceMiddle left middle right) = original (left ++ middle ++ right) := by
  simp [replaceMiddle, original, Patch.original]

@[simp] theorem rendered_replaceMiddle (left middle right : List (Patch α)) :
    rendered placeholder (replaceMiddle left middle right) =
      rendered placeholder left ++ placeholder ++ rendered placeholder right := by
  simp [replaceMiddle, Patch.rendered]

end Parts

section Cutting

/-- A placeholder that a cut would divide. -/
def Straddles (placeholder before rest : List α) : Prop :=
  ∃ front back, front ≠ [] ∧ back ≠ [] ∧ placeholder = front ++ back ∧
    front <:+ before ∧ back <+: rest

theorem Straddles.cons {symbol : α} (straddles : Straddles placeholder before rest) :
    Straddles placeholder (symbol :: before) rest := by
  obtain ⟨front, back, front_ne, back_ne, whole, atEnd, atStart⟩ := straddles
  exact ⟨front, back, front_ne, back_ne, whole, atEnd.trans (List.suffix_cons symbol before),
    atStart⟩

theorem Straddles.append_left {lead : List α} (straddles : Straddles placeholder before rest) :
    Straddles placeholder (lead ++ before) rest := by
  induction lead with
  | nil => exact straddles
  | cons symbol lead ih => exact ih.cons

/-- A cut that divides no placeholder cuts between two parts. -/
theorem exists_parts {work : List (Patch α)} (whole : rendered placeholder work = before ++ rest)
    (clear : ¬ Straddles placeholder before rest) :
    ∃ left right, work = left ++ right ∧ rendered placeholder left = before ∧
      rendered placeholder right = rest := by
  induction work generalizing before with
  | nil =>
      obtain ⟨rfl, rfl⟩ := List.append_eq_nil_iff.mp whole.symm
      exact ⟨[], [], rfl, rfl, rfl⟩
  | cons patch work ih =>
      -- A part that is before the cut stays on its left.
      have onward : ∀ tail, before = patch.rendered placeholder ++ tail →
          rendered placeholder work = tail ++ rest →
          ∃ left right, patch :: work = left ++ right ∧ rendered placeholder left = before ∧
            rendered placeholder right = rest := by
        rintro tail rfl later
        obtain ⟨left, right, rfl, onLeft, onRight⟩ := ih later fun straddles =>
          clear straddles.append_left
        exact ⟨patch :: left, right, rfl, by rw [rendered_cons, onLeft], onRight⟩
      rw [rendered_cons] at whole
      rcases List.append_eq_append_iff.mp whole with ⟨tail, split, later⟩ | ⟨tail, split, later⟩
      · exact onward tail split later
      · -- The part reaches up to the cut or beyond it.
        by_cases nothing : before = []
        · subst nothing
          exact ⟨[], patch :: work, rfl, rfl, by
            rw [rendered_cons, split, List.nil_append, later]⟩
        · by_cases exactly_ : tail = []
          · subst exactly_
            exact onward [] (by simpa using split.symm) (by simpa using later.symm)
          · exfalso
            cases patch with
            | kept symbol =>
                have sizes := congrArg List.length split
                have first := List.length_pos_iff.mpr nothing
                have second := List.length_pos_iff.mpr exactly_
                simp only [Patch.rendered, List.length_singleton, List.length_append] at sizes
                omega
            | replaced text =>
                exact clear ⟨before, tail, nothing, exactly_, split, List.suffix_rfl, by
                  rw [later]
                  exact List.prefix_append ..⟩

/-- A match that begins and ends inside no placeholder covers whole parts. -/
theorem exists_middle {work : List (Patch α)}
    (whole : rendered placeholder work = before ++ inside ++ after)
    (start : ¬ Straddles placeholder before (inside ++ after))
    (end_ : ¬ Straddles placeholder (before ++ inside) after) :
    ∃ left middle right, work = left ++ middle ++ right ∧ rendered placeholder left = before ∧
      rendered placeholder middle = inside ∧ rendered placeholder right = after := by
  obtain ⟨shown, right, rfl, shownLeft, rfl⟩ := exists_parts whole end_
  obtain ⟨left, middle, rfl, rfl, rfl⟩ := exists_parts shownLeft fun straddles => start <| by
    obtain ⟨front, back, front_ne, back_ne, split, atEnd, atStart⟩ := straddles
    exact ⟨front, back, front_ne, back_ne, split, atEnd,
      atStart.trans (List.prefix_append ..)⟩
  exact ⟨left, middle, right, rfl, rfl, rfl, rfl⟩

end Cutting

end Egregore.Base
