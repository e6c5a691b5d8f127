import Mathlib.Data.List.Infix
import Mathlib.Tactic.Common

/-!
# Occurrences in a text

The places at which what remains of a text starts in some way, in order, and what the rest of a
search knows of them. A word that is found inside of marked text ends before the mark, which
`prefix_of_prefix_marked` and its companions for suffixes and infixes say.
-/

namespace Egregore.Base

variable {starts : List Char → Bool} {stride : Nat}

section Search

/-- The places from some point on. After one of them, a number of characters is not looked at. -/
def occurrencesFrom (starts : List Char → Bool) (stride : Nat) :
    Nat → List Char → List Char → List (List Char × List Char)
  | _, _, [] => []
  | skip + 1, before, head :: tail => occurrencesFrom starts stride skip (before ++ [head]) tail
  | 0, before, head :: tail =>
      if starts (head :: tail) then
        (before, head :: tail) ::
          occurrencesFrom starts stride (stride - 1) (before ++ [head]) tail
      else occurrencesFrom starts stride 0 (before ++ [head]) tail

/-- The places at which a text starts in some way: what is before each, and what remains there. The
search goes on a stride after each place. -/
def occurrences (starts : List Char → Bool) (stride : Nat) (text : List Char) :
    List (List Char × List Char) :=
  occurrencesFrom starts stride 0 [] text

theorem of_mem_occurrencesFrom {skip : Nat} {seen text before rest : List Char}
    (member : (before, rest) ∈ occurrencesFrom starts stride skip seen text) :
    seen ++ text = before ++ rest ∧ starts rest = true := by
  induction text generalizing skip seen with
  | nil => cases skip <;> cases member
  | cons head tail ih =>
      have onward : ∀ {skip}, (before, rest) ∈
          occurrencesFrom starts stride skip (seen ++ [head]) tail →
          seen ++ head :: tail = before ++ rest ∧ starts rest = true := by
        intro skip member
        simpa using ih member
      cases skip with
      | succ skip => exact onward member
      | zero =>
          rw [occurrencesFrom] at member
          split at member
          · next here =>
              rcases List.mem_cons.mp member with same | later
              · cases same
                exact ⟨rfl, here⟩
              · exact onward later
          · exact onward member

/-- A place cuts the text in two. -/
theorem of_mem_occurrences {text before rest : List Char}
    (member : (before, rest) ∈ occurrences starts stride text) :
    text = before ++ rest ∧ starts rest = true :=
  of_mem_occurrencesFrom member

/-- What a search finds, it finds at a place. -/
theorem exists_of_findSome?_occurrences {β : Type*} {accept : List Char × List Char → Option β}
    {text : List Char} {found : β}
    (search : (occurrences starts stride text).findSome? accept = some found) :
    ∃ before rest, text = before ++ rest ∧ starts rest = true ∧
      accept (before, rest) = some found := by
  obtain ⟨⟨before, rest⟩, member, accepted⟩ := List.exists_of_findSome?_eq_some search
  obtain ⟨split, here⟩ := of_mem_occurrences member
  exact ⟨before, rest, split, here, accepted⟩

/-- A text that starts nowhere in this way has no place. -/
theorem occurrences_eq_nil {text : List Char}
    (nowhere : ∀ before rest, text = before ++ rest → starts rest = false) :
    occurrences starts stride text = [] := by
  rw [List.eq_nil_iff_forall_not_mem]
  rintro ⟨before, rest⟩ member
  obtain ⟨split, here⟩ := of_mem_occurrences member
  rw [nowhere before rest split] at here
  cases here

end Search

section Marks

variable {lead more word : List Char} {mark : Char}

/-- A text without the mark is a prefix of what is before the mark. -/
theorem prefix_of_prefix_marked {front : List Char} (unmarked : mark ∉ front)
    (start : front <+: lead ++ mark :: more) : front <+: lead := by
  rcases List.prefix_or_prefix_of_prefix start (List.prefix_append lead (mark :: more)) with
    within | ⟨trail, rfl⟩
  · exact within
  · cases trail with
    | nil => simp
    | cons head trail =>
        obtain ⟨left, whole⟩ := start
        have same : head :: trail ++ left = mark :: more := by
          simpa [List.append_assoc] using whole
        obtain rfl : head = mark := (List.cons.inj same).1
        exact absurd (by simp) unmarked

/-- A text without the mark is a suffix of what is after the mark. -/
theorem suffix_of_suffix_marked {back : List Char} (unmarked : mark ∉ back)
    (end_ : back <:+ lead ++ mark :: more) : back <:+ more := by
  have reversed : back.reverse <+: more.reverse ++ mark :: lead.reverse := by
    simpa using List.reverse_prefix.mpr end_
  exact List.reverse_prefix.mp
    (prefix_of_prefix_marked (by simpa using unmarked) reversed)

/-- A text without the mark is on one side of it. -/
theorem infix_append_cons (unmarked : mark ∉ word) (occurs : word <:+: lead ++ mark :: more) :
    word <:+: lead ∨ word <:+: more := by
  induction lead with
  | nil =>
      rcases List.infix_cons_iff.mp occurs with starts | later
      · have empty : word <+: [] := prefix_of_prefix_marked unmarked starts
        exact Or.inl empty.isInfix
      · exact Or.inr later
  | cons char lead ih =>
      rcases List.infix_cons_iff.mp occurs with starts | later
      · have within : word <+: char :: lead := prefix_of_prefix_marked unmarked starts
        exact Or.inl within.isInfix
      · rcases ih later with inLead | inMore
        · exact Or.inl (inLead.trans (List.suffix_cons char lead).isInfix)
        · exact Or.inr inMore

end Marks

end Egregore.Base
