import Egregore.Base.Text

/-!
# Token counts

`token_cost.rs`: the `word-punct-v1` count. Texts are counted apart where no word goes on from
the one into the other.
-/

namespace Egregore

open Base

/-- `TOKEN_COUNT_METHOD`. -/
def tokenCountMethod : String := "word-punct-v1"

/-- A character of a word. -/
def isWordChar (char : Char) : Bool := char.isAlphanum || char = '_'

/-- One character: the count, and whether a word goes on. -/
def countToken : Nat × Bool → Char → Nat × Bool
  | (count, inWord), char =>
      if isWordChar char then (if inWord then count else count + 1, true)
      else if isWhitespace char then (count, false)
      else (count + 1, false)

/-- `count_tokens`. -/
def countTokens (text : List Char) : Nat := (text.foldl countToken (0, false)).1

/-- No word goes on from the one text into the other. -/
def Apart (before after : List Char) : Prop :=
  (∀ char ∈ before.getLast?, isWordChar char = false) ∨
    ∀ char ∈ after.head?, isWordChar char = false

/-- What is counted already is added to what follows. -/
theorem foldl_countToken (text : List Char) (count : Nat) (inWord : Bool) :
    text.foldl countToken (count, inWord) =
      (count + (text.foldl countToken (0, inWord)).1, (text.foldl countToken (0, inWord)).2) := by
  induction text generalizing count inWord with
  | nil => rfl
  | cons char text ih =>
      rw [List.foldl_cons, List.foldl_cons]
      have step : countToken (count, inWord) char =
          (count + (countToken (0, inWord) char).1, (countToken (0, inWord) char).2) := by
        simp only [countToken]
        split_ifs <;> rfl
      rw [step, ih, ih (countToken (0, inWord) char).1, Nat.add_assoc]

/-- After a text, a word goes on if its last character is one of a word. -/
theorem foldl_countToken_inWord (text : List Char) (count : Nat) {last : Char}
    (ends : text.getLast? = some last) (plain : isWordChar last = false) (inWord : Bool) :
    (text.foldl countToken (count, inWord)).2 = false := by
  obtain ⟨front, rfl⟩ := List.getLast?_eq_some_iff.mp ends
  rw [List.foldl_append, List.foldl_cons, List.foldl_nil, countToken, plain]
  cases isWhitespace last <;> rfl

/-- A text that starts no word is counted alike after a word. -/
theorem countTokens_after {text : List Char} (starts : ∀ char ∈ text.head?, isWordChar char = false)
    (inWord : Bool) : (text.foldl countToken (0, inWord)).1 = countTokens text := by
  cases text with
  | nil => rfl
  | cons char text =>
      have plain := starts char rfl
      rw [countTokens, List.foldl_cons, List.foldl_cons, countToken, countToken, plain]
      rfl

theorem countTokens_append {before after : List Char} (apart : Apart before after) :
    countTokens (before ++ after) = countTokens before + countTokens after := by
  rw [countTokens, List.foldl_append, countTokens]
  generalize counted : before.foldl countToken (0, false) = state
  obtain ⟨count, inWord⟩ := state
  rw [foldl_countToken]
  have rest : (after.foldl countToken (0, inWord)).1 = countTokens after := by
    rcases apart with ends | starts
    · cases last : before.getLast? with
      | none =>
          obtain rfl := List.getLast?_eq_none_iff.mp last
          obtain ⟨-, rfl⟩ := Prod.mk.inj counted
          rfl
      | some char =>
          have outside := foldl_countToken_inWord before 0 last (ends char last) false
          rw [counted] at outside
          obtain rfl : inWord = false := outside
          rfl
    · exact countTokens_after starts inWord
  exact congrArg (count + ·) rest

/-- A word is one token. -/
theorem countTokens_word {word : List Char} (some : word ≠ [])
    (chars : ∀ char ∈ word, isWordChar char = true) : countTokens word = 1 := by
  obtain ⟨head, word, rfl⟩ := List.exists_cons_of_ne_nil some
  have inside : ∀ rest : List Char, (∀ char ∈ rest, isWordChar char = true) → ∀ count,
      (rest.foldl countToken (count, true)).1 = count := by
    intro rest
    induction rest with
    | nil => exact fun _ _ => rfl
    | cons char rest ih =>
        intro chars count
        rw [List.foldl_cons, countToken, if_pos (chars char (List.mem_cons_self ..)), if_pos rfl]
        exact ih (fun other member => chars other (List.mem_cons_of_mem _ member)) count
  rw [countTokens, List.foldl_cons, countToken, if_pos (chars head (List.mem_cons_self ..))]
  exact inside word (fun char member => chars char (List.mem_cons_of_mem _ member)) 1

end Egregore
