import Mathlib.Data.List.Infix
import Mathlib.Tactic.Common

/-!
# Matchers

A matcher reads a text from its start and returns what remains after the match. The rules say of the
ways to combine matchers that they return a suffix, that they consume something, and that they do
not see past a mark.
-/

namespace Egregore.Base

/-- What remains of a text after a match, if there is one. -/
abbrev Matcher := List Char → Option (List Char)

namespace Matcher

variable {kind : Char → Bool} {mark target : Char} {first next : Matcher}

section Combinators

/-- One literal character. -/
def lit (target : Char) : Matcher
  | head :: tail => if head = target then some tail else none
  | [] => none

/-- A word, letter by letter. -/
def word : List Char → Matcher
  | [], text => some text
  | head :: tail, text => (lit head text).bind (word tail)

/-- The first of some matchers that matches. -/
def oneOf (matchers : List Matcher) : Matcher := fun text => matchers.findSome? fun matcher =>
  matcher text

/-- A number of characters of a kind. -/
def exactly (kind : Char → Bool) : Nat → Matcher
  | 0, text => some text
  | _ + 1, [] => none
  | count + 1, head :: tail => if kind head then exactly kind count tail else none

/-- All characters of a kind, at least one. -/
def oneOrMore (kind : Char → Bool) : Matcher
  | head :: tail => if kind head then some (tail.dropWhile kind) else none
  | [] => none

/-- Characters of a kind, up to a number of them. -/
def upTo (kind : Char → Bool) : Nat → List Char → List Char
  | 0, text => text
  | _ + 1, [] => []
  | count + 1, head :: tail => if kind head then upTo kind count tail else head :: tail

/-- Characters of a kind, at least one and up to a number of them. -/
def oneTo (kind : Char → Bool) (count : Nat) : Matcher
  | head :: tail => if kind head then some (upTo kind (count - 1) tail) else none
  | [] => none

/-- A match, or nothing. -/
def attempt (matcher : Matcher) : Matcher := fun text => some ((matcher text).getD text)

/-- A match that must succeed after a literal, if that is there. -/
def optionally (target : Char) (matcher : Matcher) : Matcher
  | head :: tail => if head = target then matcher tail else some (head :: tail)
  | [] => some []

/-- A match that no character of a kind follows. -/
def endingBefore (kind : Char → Bool) (matcher : Matcher) : Matcher :=
  fun text => (matcher text).filter fun rest => rest.head?.all fun next => !kind next

end Combinators

section Consumption

/-- A match leaves a suffix. -/
def Trims (matcher : Matcher) : Prop := ∀ text rest, matcher text = some rest → rest <:+ text

/-- A match leaves a suffix and consumes something. -/
def Consumes (matcher : Matcher) : Prop :=
  ∀ text rest, matcher text = some rest → ∃ consumed, consumed ≠ [] ∧ text = consumed ++ rest

/-- A matcher that consumes something returns a suffix. -/
theorem Consumes.trims (consumes : Consumes first) : Trims first := by
  intro text rest matched
  obtain ⟨consumed, -, rfl⟩ := consumes text rest matched
  exact List.suffix_append consumed rest

/-- So what remains is shorter, and a repetition ends. -/
theorem Consumes.length_lt (consumes : Consumes first) {text rest : List Char}
    (matched : first text = some rest) : rest.length < text.length := by
  obtain ⟨consumed, nonempty, rfl⟩ := consumes text rest matched
  rw [List.length_append]
  have := List.length_pos_iff.mpr nonempty
  omega

/-- A literal matches a text that starts with it. -/
@[simp] theorem lit_eq_some_iff {text rest : List Char} :
    lit target text = some rest ↔ text = target :: rest := by
  cases text with
  | nil => simp [lit]
  | cons head tail => simp [lit]

/-- The combinators return suffixes. Those that match a character at least consume something. -/
theorem consumes_lit : Consumes (lit target) := by
  intro text rest matched
  exact ⟨[target], by simp, lit_eq_some_iff.mp matched⟩

/-- A fixed number of characters of a kind does not match where the first is of another kind. -/
theorem exactly_eq_none {text : List Char} (outside : ∀ head ∈ text.head?, kind head = false)
    (count : Nat) : exactly kind (count + 1) text = none := by
  cases text with
  | nil => rfl
  | cons head tail =>
    rw [exactly, outside head (by simp)]
    rfl

/-- A match of some characters of a kind starts with one. -/
theorem exists_head_of_exactly {count : Nat} {text rest : List Char}
    (matched : exactly kind (count + 1) text = some rest) :
    ∃ head tail, text = head :: tail ∧ kind head = true := by
  cases text with
  | nil => cases matched
  | cons head tail =>
    rw [exactly, Option.ite_none_right_eq_some] at matched
    exact ⟨head, tail, rfl, matched.1⟩

/-- A fixed number of characters is a prefix that is taken off. -/
theorem trims_exactly (count : Nat) : Trims (exactly kind count) := by
  intro text rest matched
  induction count generalizing text with
  | zero =>
    rw [exactly, Option.some.injEq] at matched
    rw [matched]
  | succ count ih =>
    cases text with
    | nil => cases matched
    | cons head tail =>
      rw [exactly, Option.ite_none_right_eq_some] at matched
      exact (ih _ matched.2).trans (List.suffix_cons head tail)

/-- It is not empty unless the number is zero. -/
theorem consumes_exactly (count : Nat) : Consumes (exactly kind (count + 1)) := by
  intro text rest matched
  cases text with
  | nil => cases matched
  | cons head tail =>
    rw [exactly, Option.ite_none_right_eq_some] at matched
    obtain ⟨consumed, rfl⟩ := trims_exactly count _ _ matched.2
    exact ⟨head :: consumed, by simp, rfl⟩

/-- A run of characters has one at least. -/
theorem consumes_oneOrMore : Consumes (oneOrMore kind) := by
  intro text rest matched
  cases text with
  | nil => cases matched
  | cons head tail =>
    rw [oneOrMore, Option.ite_none_right_eq_some, Option.some.injEq] at matched
    refine ⟨head :: tail.takeWhile kind, by simp, ?_⟩
    rw [← matched.2, List.cons_append, List.takeWhile_append_dropWhile]

/-- A bounded run leaves a suffix. -/
theorem upTo_suffix (count : Nat) (text : List Char) : upTo kind count text <:+ text := by
  induction count generalizing text with
  | zero => exact List.suffix_rfl
  | succ count ih =>
    cases text with
    | nil => exact List.suffix_rfl
    | cons head tail =>
      rw [upTo]
      split
      · exact (ih tail).trans (List.suffix_cons head tail)
      · exact List.suffix_rfl

/-- A bounded run of one character at least starts with one of the kind. -/
theorem exists_head_of_oneTo {count : Nat} {text rest : List Char}
    (matched : oneTo kind count text = some rest) :
    ∃ head consumed, text = head :: consumed ++ rest ∧ kind head = true := by
  cases text with
  | nil => cases matched
  | cons head tail =>
    rw [oneTo, Option.ite_none_right_eq_some, Option.some.injEq] at matched
    obtain ⟨consumed, same⟩ : upTo kind (count - 1) tail <:+ tail := upTo_suffix _ _
    exact ⟨head, consumed, by rw [← matched.2, List.cons_append, same], matched.1⟩

/-- So it consumes that one. -/
theorem consumes_oneTo (count : Nat) : Consumes (oneTo kind count) := by
  intro text rest matched
  obtain ⟨head, consumed, same, -⟩ := exists_head_of_oneTo matched
  exact ⟨head :: consumed, by simp, same⟩

/-- The matcher that always matches takes nothing off. -/
theorem trims_some : Trims some := by
  rintro text rest ⟨⟩
  exact List.suffix_rfl

/-- One matcher after the other takes off a prefix when both do. -/
theorem Trims.bind (trims : Trims first) (trims' : Trims next) :
    Trims fun text => (first text).bind next := by
  intro text rest matched
  obtain ⟨middle, before, after⟩ := Option.bind_eq_some_iff.mp matched
  exact (trims' _ _ after).trans (trims _ _ before)

/-- It is enough that the first consumes something. -/
theorem Consumes.bind (consumes : Consumes first) (trims : Trims next) :
    Consumes fun text => (first text).bind next := by
  intro text rest matched
  obtain ⟨middle, before, after⟩ := Option.bind_eq_some_iff.mp matched
  obtain ⟨consumed, nonempty, rfl⟩ := consumes _ _ before
  obtain ⟨more, rfl⟩ := trims _ _ after
  exact ⟨consumed ++ more, by simp [nonempty], (List.append_assoc ..).symm⟩

/-- An attempt that fails takes nothing off. -/
theorem Trims.attempt (trims : Trims first) : Trims (attempt first) := by
  rintro text rest ⟨⟩
  cases matched : first text with
  | none => exact List.suffix_rfl
  | some rest => exact trims _ _ matched

/-- A part after a mark may be missing, and nothing is taken off then. -/
theorem Trims.optionally (trims : Trims first) : Trims (optionally target first) := by
  intro text rest matched
  cases text with
  | nil =>
    cases matched
    exact List.suffix_rfl
  | cons head tail =>
    rw [Matcher.optionally] at matched
    split at matched
    · exact (trims _ _ matched).trans (List.suffix_cons head tail)
    · cases matched
      exact List.suffix_rfl

/-- A run that may be empty is a prefix. -/
theorem trims_dropWhile : Trims fun text => some (text.dropWhile kind) := by
  rintro text rest ⟨⟩
  exact List.dropWhile_suffix kind

/-- A check of what follows takes nothing off. -/
theorem Consumes.endingBefore (consumes : Consumes first) : Consumes (endingBefore kind first) :=
  fun text rest matched => consumes text rest (Option.filter_eq_some_iff.mp matched).1

/-- Alternatives consume something when each of them does. -/
theorem Consumes.oneOf {matchers : List Matcher}
    (consumes : ∀ matcher ∈ matchers, Consumes matcher) : Consumes (oneOf matchers) := by
  intro text rest matched
  obtain ⟨matcher, listed, found⟩ := List.exists_of_findSome?_eq_some matched
  exact consumes matcher listed text rest found

/-- A word matches a text that starts with it. -/
@[simp] theorem word_eq_some_iff {letters text rest : List Char} :
    word letters text = some rest ↔ text = letters ++ rest := by
  induction letters generalizing text with
  | nil => simp [word, eq_comm]
  | cons head tail ih => simp [word, Option.bind_eq_some_iff, ih]

/-- A word takes itself off. -/
theorem trims_word (letters : List Char) : Trims (word letters) := by
  induction letters with
  | nil => exact trims_some
  | cons head tail ih => exact consumes_lit.trims.bind ih

/-- A word without letters would consume nothing. -/
theorem consumes_word {letters : List Char} (nonempty : letters ≠ []) :
    Consumes (word letters) := by
  cases letters with
  | nil => exact absurd rfl nonempty
  | cons head tail => exact consumes_lit.bind (trims_word tail)

/-- Matches one after another, as long as there are some, and their number. -/
def repeated (matcher : Matcher) (consumes : Consumes matcher) (text : List Char) :
    Nat × List Char :=
  match _matched : matcher text with
  | none => (0, text)
  | some rest =>
      let (count, rest) := repeated matcher consumes rest
      (count + 1, rest)
termination_by text.length
decreasing_by exact consumes.length_lt _matched

/-- A repetition ends where the matcher no longer matches. -/
theorem repeated_of_none {consumes : Consumes first} {text : List Char}
    (unmatched : first text = none) : repeated first consumes text = (0, text) := by
  rw [repeated]
  split
  · rfl
  · next matched =>
    rw [unmatched] at matched
    cases matched

/-- Where it matches, the repetition counts it and goes on after it. -/
theorem repeated_of_some {consumes : Consumes first} {text rest : List Char}
    (matched : first text = some rest) : repeated first consumes text =
      ((repeated first consumes rest).1 + 1, (repeated first consumes rest).2) := by
  rw [repeated]
  split
  · next unmatched =>
    rw [unmatched] at matched
    cases matched
  · next found =>
    rw [found, Option.some.injEq] at matched
    rw [matched]

/-- Repeated matches leave a suffix, a shorter one if there was a match. -/
theorem repeated_suffix (consumes : Consumes first) (text : List Char) :
    ∃ consumed, text = consumed ++ (repeated first consumes text).2 ∧
      ((repeated first consumes text).1 ≠ 0 → consumed ≠ []) := by
  induction length : text.length using Nat.strong_induction_on generalizing text with
  | _ length ih =>
    subst length
    cases matched : first text with
    | none =>
      rw [repeated_of_none matched]
      exact ⟨[], rfl, fun some => absurd rfl some⟩
    | some rest =>
      rw [repeated_of_some matched]
      obtain ⟨consumed, nonempty, rfl⟩ := consumes _ _ matched
      obtain ⟨more, same, -⟩ := ih _ (consumes.length_lt matched) rest rfl
      refine ⟨consumed ++ more, ?_, fun _ => by simp [nonempty]⟩
      rw [List.append_assoc, ← same]

end Consumption

section Marks

/-- Two results before a mark that differ in the text after it only. -/
inductive Alike (mark : Char) (after after' : List Char) :
    Option (List Char) → Option (List Char) → Prop
  | none : Alike mark after after' none none
  | some (rest : List Char) :
      Alike mark after after' (some (rest ++ mark :: after)) (some (rest ++ mark :: after'))

/-- A matcher that does not see past a mark. -/
def StopsAt (mark : Char) (matcher : Matcher) : Prop := ∀ before after after',
  Alike mark after after' (matcher (before ++ mark :: after)) (matcher (before ++ mark :: after'))

variable {after after' : List Char} {result result' : Option (List Char)}

/-- Two alike results stay alike under a matcher that stops at the mark. -/
theorem Alike.bind (alike : Alike mark after after' result result') (stops : StopsAt mark next) :
    Alike mark after after' (result.bind next) (result'.bind next) := by
  cases alike with
  | none => exact .none
  | some rest => exact stops rest after after'

/-- The matcher that always matches does not read at all. -/
theorem stopsAt_some : StopsAt mark some := fun before _ _ => .some before

/-- A literal reads one character, which stops at any other mark. -/
theorem stopsAt_lit (apart : target ≠ mark) : StopsAt mark (lit target) := by
  intro before after after'
  cases before with
  | nil =>
    simp only [List.nil_append, lit, if_neg apart.symm]
    exact .none
  | cons head rest =>
    simp only [List.cons_append, lit]
    split
    · exact .some rest
    · exact .none

/-- A run of characters that are no mark ends at the mark or before. -/
theorem dropWhile_append_mark (outside : kind mark = false) (before after : List Char) :
    (before ++ mark :: after).dropWhile kind = before.dropWhile kind ++ mark :: after := by
  induction before with
  | nil => simp [outside]
  | cons head rest ih =>
    rw [List.cons_append, List.dropWhile_cons, List.dropWhile_cons]
    split
    · exact ih
    · rfl

/-- So what follows the mark does not belong to the run. -/
theorem takeWhile_append_mark (outside : kind mark = false) (before after : List Char) :
    (before ++ mark :: after).takeWhile kind = before.takeWhile kind := by
  induction before with
  | nil => simp [outside]
  | cons head rest ih => rw [List.cons_append, List.takeWhile_cons, List.takeWhile_cons, ih]

/-- The same of a bounded run. -/
theorem upTo_append_mark (outside : kind mark = false) (count : Nat) (before after : List Char) :
    upTo kind count (before ++ mark :: after) = upTo kind count before ++ mark :: after := by
  induction count generalizing before with
  | zero => rfl
  | succ count ih =>
    cases before with
    | nil => simp [upTo, outside]
    | cons head rest =>
      simp only [List.cons_append, upTo]
      split
      · exact ih rest
      · rfl

/-- The combinators stop at a mark that is not of the kind they read. -/
theorem stopsAt_exactly (outside : kind mark = false) (count : Nat) :
    StopsAt mark (exactly kind count) := by
  intro before after after'
  induction count generalizing before with
  | zero => exact .some before
  | succ count ih =>
    cases before with
    | nil =>
      simp only [List.nil_append, exactly, outside]
      exact .none
    | cons head rest =>
      simp only [List.cons_append, exactly]
      split
      · exact ih rest
      · exact .none

/-- A run ends at the mark. -/
theorem stopsAt_oneOrMore (outside : kind mark = false) : StopsAt mark (oneOrMore kind) := by
  intro before after after'
  cases before with
  | nil =>
    simp only [List.nil_append, oneOrMore, outside]
    exact .none
  | cons head rest =>
    simp only [List.cons_append, oneOrMore, dropWhile_append_mark outside]
    split
    · exact .some _
    · exact .none

/-- So does a bounded run. -/
theorem stopsAt_oneTo (outside : kind mark = false) (count : Nat) :
    StopsAt mark (oneTo kind count) := by
  intro before after after'
  cases before with
  | nil =>
    simp only [List.nil_append, oneTo, outside]
    exact .none
  | cons head rest =>
    simp only [List.cons_append, oneTo, upTo_append_mark outside]
    split
    · exact .some _
    · exact .none

/-- So does a run that may be empty. -/
theorem stopsAt_dropWhile (outside : kind mark = false) :
    StopsAt mark fun text => some (text.dropWhile kind) := by
  intro before after after'
  simp only [dropWhile_append_mark outside]
  exact .some _

/-- Two matchers that stop at the mark stop there one after the other. -/
theorem StopsAt.bind (stops : StopsAt mark first) (stops' : StopsAt mark next) :
    StopsAt mark fun text => (first text).bind next :=
  fun before after after' => (stops before after after').bind stops'

/-- An attempt looks no further than what it attempts. -/
theorem StopsAt.attempt (stops : StopsAt mark first) : StopsAt mark (attempt first) := by
  intro before after after'
  simp only [Matcher.attempt]
  generalize found : first (before ++ mark :: after) = result
  generalize found' : first (before ++ mark :: after') = result'
  have alike := stops before after after'
  rw [found, found'] at alike
  cases alike with
  | none => exact .some before
  | some rest => exact .some rest

/-- An optional part looks at the character that announces it. -/
theorem StopsAt.optionally (stops : StopsAt mark first) (apart : target ≠ mark) :
    StopsAt mark (optionally target first) := by
  intro before after after'
  cases before with
  | nil =>
    simp only [List.nil_append, Matcher.optionally, if_neg apart.symm]
    exact .some []
  | cons head rest =>
    simp only [List.cons_append, Matcher.optionally]
    split
    · exact stops rest after after'
    · exact .some (head :: rest)

/-- A check of what follows sees the mark at most. -/
theorem StopsAt.endingBefore (stops : StopsAt mark first) :
    StopsAt mark (endingBefore kind first) := by
  intro before after after'
  simp only [Matcher.endingBefore]
  generalize found : first (before ++ mark :: after) = result
  generalize found' : first (before ++ mark :: after') = result'
  have alike := stops before after after'
  rw [found, found'] at alike
  cases alike with
  | none => exact .none
  | some rest =>
    have heads : (rest ++ mark :: after).head? = (rest ++ mark :: after').head? := by
      cases rest <;> rfl
    rw [Option.filter_some, Option.filter_some, heads]
    split
    · exact .some rest
    · exact .none

/-- Alternatives stop at the mark when each of them does. -/
theorem StopsAt.oneOf {matchers : List Matcher}
    (stops : ∀ matcher ∈ matchers, StopsAt mark matcher) : StopsAt mark (oneOf matchers) := by
  intro before after after'
  induction matchers with
  | nil => exact .none
  | cons matcher others ih =>
    obtain ⟨own, rest⟩ := List.forall_mem_cons.mp stops
    generalize found : matcher (before ++ mark :: after) = result
    generalize found' : matcher (before ++ mark :: after') = result'
    have alike := own before after after'
    rw [found, found'] at alike
    simp only [Matcher.oneOf, List.findSome?_cons, found, found']
    cases alike with
    | none => exact ih rest
    | some rest => exact .some rest

/-- A word stops at a mark that it does not hold. -/
theorem stopsAt_word {letters : List Char} (absent : mark ∉ letters) :
    StopsAt mark (word letters) := by
  induction letters with
  | nil => exact stopsAt_some
  | cons head tail ih =>
    rw [List.mem_cons, not_or] at absent
    obtain ⟨apart, absent⟩ := absent
    exact (stopsAt_lit (Ne.symm apart)).bind (ih absent)

/-- Repeated matches stop where each does. -/
theorem StopsAt.repeated (stops : StopsAt mark first) (consumes : Consumes first)
    (before after after' : List Char) : ∃ count rest,
      repeated first consumes (before ++ mark :: after) = (count, rest ++ mark :: after) ∧
        repeated first consumes (before ++ mark :: after') = (count, rest ++ mark :: after') := by
  induction length : before.length using Nat.strong_induction_on generalizing before with
  | _ length ih =>
    subst length
    generalize found : first (before ++ mark :: after) = result
    generalize found' : first (before ++ mark :: after') = result'
    have alike := stops before after after'
    rw [found, found'] at alike
    cases alike with
    | none => exact ⟨0, before, repeated_of_none found, repeated_of_none found'⟩
    | some rest =>
      have shorter : rest.length < before.length := by
        have := consumes.length_lt found
        simp only [List.length_append] at this
        omega
      obtain ⟨count, rest, same, same'⟩ := ih _ shorter rest rfl
      refine ⟨count + 1, rest, ?_, ?_⟩
      · rw [repeated_of_some found, same]
      · rw [repeated_of_some found', same']

end Marks

end Matcher

end Egregore.Base
