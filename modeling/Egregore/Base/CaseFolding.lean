import Egregore.Base.Text

/-!
# Folding the case of a text

A text is folded to lower case character by character: a character may become several and
depend on its neighbours, but the marks, the ASCII characters that are no letters, stay where
they are and nothing else becomes one.
-/

namespace Egregore.Base

/-- The ASCII characters that are no letters. -/
def isMark (char : Char) : Bool := char.toNat < 128 && !char.isAlpha

/-- What one character is folded to. -/
structure Folded (char : Char) (piece : List Char) : Prop where
  nonempty : piece ≠ []
  mark : isMark char = true → piece = [char]
  reflects : ∀ mark ∈ piece, isMark mark = true → char = mark

/-- A text is folded character by character. -/
def FoldsTo (text lower : List Char) : Prop :=
  ∃ pieces, lower = pieces.flatten ∧ List.Forall₂ Folded text pieces

/-- `str::to_lowercase`: a character may become several and depend on its neighbours, but
marks stay, a port after a colon changes nothing, and what is folded is stable. -/
structure Lowercases (toLowercase : List Char → List Char) : Prop where
  folds : ∀ text, FoldsTo text (toLowercase text)
  ascii : ∀ text, (∀ char ∈ text, char.toNat < 128) → toLowercase text = text.map Char.toLower
  port : ∀ text digits, (∀ char ∈ digits, char.isDigit = true) →
    toLowercase (text ++ ':' :: digits) = toLowercase text ++ ':' :: digits
  idempotent : ∀ text, toLowercase (toLowercase text) = toLowercase text

section Folds

variable {text lower front back : List Char} {mark : Char}

/-- Only the empty text folds to nothing. -/
theorem FoldsTo.eq_nil (folds : FoldsTo text []) : text = [] := by
  obtain ⟨pieces, empty, related⟩ := folds
  cases related with
  | nil => rfl
  | cons first rest =>
      rw [eq_comm, List.flatten_cons, List.append_eq_nil_iff] at empty
      exact absurd empty.1 first.nonempty

/-- A mark folds to itself. -/
theorem FoldsTo.of_mark (isMark : isMark mark = true) (folds : FoldsTo [mark] lower) :
    lower = [mark] := by
  obtain ⟨pieces, rfl, related⟩ := folds
  obtain ⟨piece, folded, rfl⟩ : ∃ piece, Folded mark piece ∧ pieces = [piece] := by
    cases related with
    | cons first rest =>
        cases rest
        exact ⟨_, first, rfl⟩
  simp [folded.mark isMark]

/-- A text is folded part by part. -/
theorem FoldsTo.of_append (folds : FoldsTo (front ++ back) lower) :
    ∃ lower' lower'', lower = lower' ++ lower'' ∧ FoldsTo front lower' ∧ FoldsTo back lower'' := by
  obtain ⟨pieces, rfl, related⟩ := folds
  induction front generalizing pieces with
  | nil => exact ⟨[], pieces.flatten, rfl, ⟨[], rfl, .nil⟩, pieces, rfl, related⟩
  | cons head tail ih =>
      cases related with
      | cons first rest =>
          obtain ⟨lower', lower'', split, ⟨pieces', rfl, related'⟩, folds⟩ := ih _ rest
          refine ⟨_, lower'', ?_, ⟨_ :: pieces', rfl, .cons first related'⟩, folds⟩
          rw [List.flatten_cons, split, List.flatten_cons, List.append_assoc]

/-- A mark of the folded text stands in the text, between what the rest is folded from. -/
theorem FoldsTo.split_mark (isMark : isMark mark = true)
    (folds : FoldsTo text (front ++ mark :: back)) :
    ∃ before after, text = before ++ mark :: after ∧ FoldsTo before front ∧ FoldsTo after back := by
  obtain ⟨pieces, split, related⟩ := folds
  induction related generalizing front with
  | nil => simp at split
  | @cons char piece rest pieces first related ih =>
      rw [List.flatten_cons] at split
      rcases List.append_eq_append_iff.mp split with ⟨more, whole, later⟩ | ⟨more, rfl, later⟩
      · cases more with
        | nil =>
            rw [List.append_nil] at whole
            rw [List.nil_append] at later
            subst whole
            obtain ⟨before, after, rfl, beforeFolds, folds⟩ := @ih [] later
            rw [beforeFolds.eq_nil, List.nil_append]
            exact ⟨[char], after, rfl, ⟨[piece], by simp, .cons first .nil⟩, folds⟩
        | cons head more =>
            obtain ⟨rfl, rfl⟩ := List.cons.inj later
            obtain rfl : char = mark := first.reflects mark (by simp [whole]) isMark
            have single := first.mark isMark
            obtain ⟨rfl, rfl⟩ : front = [] ∧ more = [] := by
              simpa [whole, List.append_eq_singleton_iff] using single
            exact ⟨[], rest, rfl, ⟨[], rfl, .nil⟩, pieces, rfl, related⟩
      · obtain ⟨before, after, rfl, ⟨pieces', rfl, related'⟩, folds⟩ := ih later.symm
        exact ⟨char :: before, after, rfl, ⟨piece :: pieces', rfl, .cons first related'⟩, folds⟩

/-- Folding keeps the marks. -/
theorem FoldsTo.mem_iff (isMark : isMark mark = true) (folds : FoldsTo text lower) :
    mark ∈ lower ↔ mark ∈ text := by
  constructor
  · intro member
    obtain ⟨front, back, rfl⟩ := List.append_of_mem member
    obtain ⟨before, after, rfl, -⟩ := folds.split_mark isMark
    simp
  · intro member
    obtain ⟨before, after, rfl⟩ := List.append_of_mem member
    obtain ⟨lower', lower'', rfl, -, folds'⟩ := folds.of_append
    obtain ⟨single, rest, rfl, only, -⟩ :=
      (show FoldsTo ([mark] ++ after) lower'' from folds').of_append
    rw [only.of_mark isMark]
    simp

/-- It keeps how many there are. -/
theorem FoldsTo.count (isMark : isMark mark = true) (folds : FoldsTo text lower) :
    lower.count mark = text.count mark := by
  obtain ⟨pieces, rfl, related⟩ := folds
  induction related with
  | nil => rfl
  | @cons char piece rest pieces first related ih =>
      rw [List.flatten_cons, List.count_append, ih, List.count_cons, Nat.add_comm]
      by_cases same : char = mark
      · subst same
        simp [first.mark isMark]
      · rw [List.count_eq_zero.mpr fun member => same (first.reflects mark member isMark)]
        simp [same]

/-- Folding keeps a mark at the end of the text. -/
theorem FoldsTo.getLast? (isMark : isMark mark = true) (folds : FoldsTo (text ++ [mark]) lower) :
    lower.getLast? = some mark := by
  obtain ⟨lower', lower'', rfl, -, only⟩ := folds.of_append
  rw [only.of_mark isMark]
  simp

/-- Folding makes no `://`. -/
theorem FoldsTo.mark_occurs (folds : FoldsTo text lower) (occurs : "://".toList <:+: lower) :
    "://".toList <:+: text := by
  obtain ⟨front, back, rfl⟩ := occurs
  obtain ⟨before, after, rfl, -, folds⟩ :=
    (show FoldsTo text (front ++ ':' :: ('/' :: '/' :: back)) by simpa using folds).split_mark
      (by decide)
  obtain ⟨none, after, rfl, empty, folds⟩ :=
    (show FoldsTo after ([] ++ '/' :: ('/' :: back)) from folds).split_mark (by decide)
  obtain ⟨none', after, rfl, empty', -⟩ :=
    (show FoldsTo after ([] ++ '/' :: back) from folds).split_mark (by decide)
  rw [empty.eq_nil, empty'.eq_nil]
  exact ⟨before, after, by simp⟩

variable {toLowercase : List Char → List Char}

/-- So does lowering. -/
theorem Lowercases.mem_iff (lowercases : Lowercases toLowercase) {text : List Char} {mark : Char}
    (isMark : isMark mark = true) : mark ∈ toLowercase text ↔ mark ∈ text :=
  (lowercases.folds text).mem_iff isMark

end Folds

/-! ### ASCII letters -/

/-- No mark is an upper case letter. -/
theorem isUpper_of_isMark {mark : Char} (isMark : isMark mark = true) : mark.isUpper = false := by
  simp only [Base.isMark, Bool.and_eq_true, Bool.not_eq_true'] at isMark
  exact (isAlpha_eq_false.mp isMark.2).1

/-- No mark is a lower case letter. -/
theorem isLower_of_isMark {mark : Char} (isMark : isMark mark = true) : mark.isLower = false := by
  simp only [Base.isMark, Bool.and_eq_true, Bool.not_eq_true'] at isMark
  exact (isAlpha_eq_false.mp isMark.2).2

/-- Lowering a letter of ASCII is a folding of it. -/
theorem folded_toLower (char : Char) : Folded char [char.toLower] where
  nonempty := List.cons_ne_nil _ _
  mark isMark := by rw [toLower_eq_self (isUpper_of_isMark isMark)]
  reflects mark member isMark := by
    rw [List.mem_singleton] at member
    exact eq_of_toLower_eq member.symm (isLower_of_isMark isMark)

/-- A lowered character stays. -/
theorem toLower_toLower (char : Char) : char.toLower.toLower = char.toLower := by
  apply toLower_eq_self
  cases upper : char.isUpper with
  | false => rw [toLower_eq_self upper, upper]
  | true =>
      have range := isUpper_iff.mp upper
      have lowered := toNat_toLower upper
      rw [← Bool.not_eq_true, isUpper_iff]
      omega

/-- Folding ASCII letters only is folding. -/
theorem lowercases_toLower : Lowercases (List.map Char.toLower) where
  folds text := by
    refine ⟨text.map fun char => [char.toLower], ?_, ?_⟩
    · induction text with
      | nil => rfl
      | cons head tail ih => simp [ih]
    · induction text with
      | nil => exact .nil
      | cons head tail ih => exact .cons (folded_toLower head) ih
  ascii _ _ := rfl
  port text digits all := by
    have same : digits.map Char.toLower = digits := by
      refine (List.map_congr_left fun char member => ?_).trans (List.map_id digits)
      apply toLower_eq_self
      have digit := all char member
      rw [← Bool.not_eq_true, isUpper_iff]
      simp only [Char.isDigit, Bool.and_eq_true, decide_eq_true_eq, UInt32.le_iff_toNat_le] at digit
      have nine : char.toNat ≤ 57 := digit.2
      omega
    rw [List.map_append, List.map_cons, same]
    rfl
  idempotent text := by
    rw [List.map_map]
    exact List.map_congr_left fun char _ => toLower_toLower char

end Egregore.Base
