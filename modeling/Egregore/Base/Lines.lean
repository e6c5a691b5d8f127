import Egregore.Base.Utf8
import Mathlib.Algebra.GroupWithZero.Nat
import Mathlib.Data.List.Induction

/-!
# Lines of a text

Splitting after each terminator, for any alphabet, and `str::lines`. Splitting
commutes with an encoding that maps the terminator, and nothing else, to the
encoded terminator; this is what lets byte offsets and text lines agree.
-/

namespace Egregore.Base

section Split

variable {α β : Type*}

/-- Split after every element satisfying `stop`; no trailing empty piece. -/
def splitInclusive (stop : α → Bool) : List α → List (List α)
  | [] => []
  | head :: tail =>
      if stop head then [head] :: splitInclusive stop tail
      else
        match splitInclusive stop tail with
        | [] => [[head]]
        | first :: others => (head :: first) :: others

/-- Drop one final `element`, when there is one. -/
def stripSuffix [DecidableEq α] (element : α) (items : List α) : List α :=
  if items.getLast? = some element then items.dropLast else items

variable {stop : α → Bool}

/-- The pieces put together are the items. -/
@[simp] theorem flatten_splitInclusive (items : List α) :
    (splitInclusive stop items).flatten = items := by
  induction items with
  | nil => rfl
  | cons head tail ih =>
      by_cases stops : stop head
      · simp [splitInclusive, stops, ih]
      · cases split : splitInclusive stop tail with
        | nil => simp_all [splitInclusive]
        | cons first others => simp_all [splitInclusive]

/-- A piece is a run free of terminators, with at most one at its end. -/
structure IsPiece (stop : α → Bool) (piece : List α) : Prop where
  nonempty : piece ≠ []
  interior : ∀ element ∈ piece.dropLast, stop element = false

/-- Each piece ends at its first stop, but the last may have none. -/
theorem isPiece_of_mem_splitInclusive {items piece : List α}
    (member : piece ∈ splitInclusive stop items) : IsPiece stop piece := by
  induction items generalizing piece with
  | nil => simp [splitInclusive] at member
  | cons head tail ih =>
      by_cases stops : stop head
      · simp only [splitInclusive, stops, if_true, List.mem_cons] at member
        rcases member with rfl | member
        · exact ⟨by simp, by simp⟩
        · exact ih member
      · cases split : splitInclusive stop tail with
        | nil =>
            simp only [splitInclusive, stops, split] at member
            obtain rfl : piece = [head] := by simpa using member
            exact ⟨by simp, by simp⟩
        | cons first others =>
            simp only [splitInclusive, stops, split, Bool.false_eq_true, if_false,
              List.mem_cons] at member
            rcases member with rfl | member
            · have piece : IsPiece stop first := ih (by simp [split])
              refine ⟨by simp, fun element inside => ?_⟩
              rw [List.dropLast_cons_of_ne_nil piece.nonempty, List.mem_cons] at inside
              rcases inside with rfl | inside
              · simpa using stops
              · exact piece.interior element inside
            · exact ih (by simp [split, member])

/-- Every piece but the last ends in a terminator. -/
theorem getLast_of_splitInclusive {items piece : List α} {later : List (List α)}
    (earlier : List (List α)) (split : splitInclusive stop items = earlier ++ piece :: later)
    (more : later ≠ []) : ∃ last, piece.getLast? = some last ∧ stop last = true := by
  induction items generalizing piece later earlier with
  | nil => simp [splitInclusive] at split
  | cons head tail ih =>
      by_cases stops : stop head
      · simp only [splitInclusive, stops, if_true] at split
        cases earlier with
        | nil =>
            obtain ⟨rfl, -⟩ := List.cons.inj split
            exact ⟨head, rfl, stops⟩
        | cons first earlier =>
            obtain ⟨-, split⟩ := List.cons.inj split
            exact ih earlier split more
      · cases rest : splitInclusive stop tail with
        | nil =>
            simp only [splitInclusive, stops, rest] at split
            cases earlier <;> simp_all
        | cons first others =>
            simp only [splitInclusive, stops, rest, Bool.false_eq_true, if_false] at split
            cases earlier with
            | nil =>
                obtain ⟨rfl, rfl⟩ := List.cons.inj split
                obtain ⟨last, at_end, stopsLast⟩ := ih [] rest more
                refine ⟨last, ?_, stopsLast⟩
                simp [List.getLast?_cons, at_end]
            | cons first' earlier =>
                obtain ⟨-, split⟩ := List.cons.inj split
                exact ih (first :: earlier) (by simp [rest, split]) more

/-- An encoding that sends terminators to single terminators and everything else
to nonempty runs without one. -/
structure PreservesStop (stop : α → Bool) (stop' : β → Bool) (encode : α → List β) : Prop where
  terminator : ∀ element, stop element = true → ∃ code, encode element = [code] ∧ stop' code = true
  other : ∀ element, stop element = false →
    encode element ≠ [] ∧ ∀ code ∈ encode element, stop' code = false

/-- Elements without a stop go to the piece that follows them. -/
private theorem splitInclusive_run_append {run rest : List α} (nonempty : run ≠ [])
    (free : ∀ element ∈ run, stop element = false) :
    splitInclusive stop (run ++ rest) =
      match splitInclusive stop rest with
      | [] => [run]
      | first :: others => (run ++ first) :: others := by
  induction run with
  | nil => exact absurd rfl nonempty
  | cons head tail ih =>
      have noStop := free head (by simp)
      simp only [List.cons_append, splitInclusive, noStop, Bool.false_eq_true, if_false]
      by_cases single : tail = []
      · subst single
        simp
      · rw [ih single fun element member => free element (List.mem_cons_of_mem _ member)]
        cases splitInclusive stop rest <;> simp

/-- A terminated run is the first piece. -/
theorem splitInclusive_terminated {run : List α} {last : α}
    (free : ∀ element ∈ run, stop element = false) (stops : stop last = true) (rest : List α) :
    splitInclusive stop (run ++ last :: rest) = (run ++ [last]) :: splitInclusive stop rest := by
  induction run with
  | nil => simp [splitInclusive, stops]
  | cons head tail ih =>
      have noStop := free head (by simp)
      have later := ih fun element member => free element (List.mem_cons_of_mem _ member)
      simp only [List.cons_append, splitInclusive, noStop, Bool.false_eq_true, if_false, later]

/-- Splitting the encoding is encoding the pieces. -/
theorem splitInclusive_flatMap {stop' : β → Bool} {encode : α → List β}
    (preserves : PreservesStop stop stop' encode) (items : List α) :
    splitInclusive stop' (items.flatMap encode) =
      (splitInclusive stop items).map fun piece => piece.flatMap encode := by
  induction items with
  | nil => rfl
  | cons head tail ih =>
      rw [List.flatMap_cons]
      by_cases stops : stop head
      · obtain ⟨code, encoded, stopsCode⟩ := preserves.terminator head stops
        simp [splitInclusive, stops, encoded, stopsCode, ih]
      · obtain ⟨nonempty, free⟩ := preserves.other head (by simpa using stops)
        rw [splitInclusive_run_append nonempty free, ih]
        cases rest : splitInclusive stop tail with
        | nil => simp [splitInclusive, stops, rest]
        | cons first others => simp [splitInclusive, stops, rest]

variable [DecidableEq α] [DecidableEq β]

/-- A suffix of one element is taken off where it stands. -/
theorem stripSuffix_append_singleton (element : α) (items : List α) :
    stripSuffix element (items ++ [element]) = items := by
  simp [stripSuffix]

/-- Another last element is left. -/
theorem stripSuffix_of_ne {element last : α} (different : last ≠ element) (items : List α) :
    stripSuffix element (items ++ [last]) = items ++ [last] := by
  simp [stripSuffix, different]

@[simp] theorem stripSuffix_nil (element : α) : stripSuffix element [] = [] := rfl

/-- Items without the element stay as they are. -/
theorem stripSuffix_of_notMem {element : α} {items : List α} (absent : element ∉ items) :
    stripSuffix element items = items := by
  rw [stripSuffix, if_neg]
  exact fun last => absent (List.mem_of_getLast? last)

/-- A suffix of the whole is one of the second part, where the first does not end with it. -/
theorem stripSuffix_append {element : α} {items : List α} (ends : items.getLast? ≠ some element)
    (more : List α) : stripSuffix element (items ++ more) = items ++ stripSuffix element more := by
  induction more using List.reverseRecOn with
  | nil => simp [stripSuffix, ends]
  | append_singleton more last _ =>
      rw [← List.append_assoc]
      by_cases same : last = element
      · rw [same, stripSuffix_append_singleton, stripSuffix_append_singleton]
      · rw [stripSuffix_of_ne same, stripSuffix_of_ne same, List.append_assoc]

/-- What `stripSuffix` removed is at most the element itself. -/
theorem eq_stripSuffix_or (element : α) (items : List α) :
    items = stripSuffix element items ∨ items = stripSuffix element items ++ [element] := by
  unfold stripSuffix
  split
  · next found =>
      obtain ⟨front, rfl⟩ := List.getLast?_eq_some_iff.mp found
      simp
  · exact Or.inl rfl

/-- Change what is before the mark at the end of a piece, if there is one. -/
def mapLine (mark : α) (change : List α → List α) (piece : List α) : List α :=
  if piece.getLast? = some mark then change piece.dropLast ++ [mark] else change piece

section MapLine

variable {mark : α} {change : List α → List α}

/-- A change of a line keeps its mark. -/
theorem mapLine_marked (line : List α) :
    mapLine mark change (line ++ [mark]) = change line ++ [mark] := by
  simp [mapLine]

/-- A line without a mark is changed as a whole. -/
theorem mapLine_plain {line : List α} (unmarked : mark ∉ line) :
    mapLine mark change line = change line :=
  if_neg fun last => unmarked (List.mem_of_getLast? last)

/-- No element of an unmarked line is a stop. -/
private theorem free_of_unmarked {line : List α} (unmarked : mark ∉ line) :
    ∀ element ∈ line, decide (element = mark) = false := by
  intro element member
  exact decide_eq_false fun same => unmarked (same ▸ member)

/-- An unmarked line is one piece. -/
private theorem splitInclusive_unmarked {line : List α} (nonempty : line ≠ [])
    (unmarked : mark ∉ line) : splitInclusive (· = mark) line = [line] := by
  have alone := @splitInclusive_run_append _ _ _ [] nonempty (free_of_unmarked unmarked)
  rwa [List.append_nil] at alone

variable (plain : ∀ line, mark ∉ line → mark ∉ change line)
  (nonempty : ∀ line, line ≠ [] → change line ≠ [])

include plain nonempty

/-- Lines that are changed within themselves are the lines of what they make. -/
theorem splitInclusive_mapLine (items : List α) :
    splitInclusive (· = mark) ((splitInclusive (· = mark) items).flatMap (mapLine mark change)) =
      (splitInclusive (· = mark) items).map (mapLine mark change) := by
  induction length : items.length using Nat.strongRecOn generalizing items with
  | _ n ih =>
    by_cases marked : mark ∈ items
    · obtain ⟨line, rest, rfl, unmarked⟩ := List.eq_append_cons_of_mem marked
      have later := ih rest.length (by simp at length; omega) rest rfl
      rw [splitInclusive_terminated (free_of_unmarked unmarked) (decide_eq_true rfl),
        List.flatMap_cons, List.map_cons, mapLine_marked, List.append_assoc,
        List.singleton_append, splitInclusive_terminated (free_of_unmarked (plain line unmarked))
          (decide_eq_true rfl), later]
    · by_cases empty : items = []
      · subst empty
        rfl
      · rw [splitInclusive_unmarked empty marked, List.flatMap_singleton, List.map_singleton,
          mapLine_plain marked, splitInclusive_unmarked (nonempty items empty) (plain items marked)]

/-- The lines of what changed lines make are the changed lines. -/
theorem stripSuffix_mapLine (items : List α) :
    (splitInclusive (· = mark)
        ((splitInclusive (· = mark) items).flatMap (mapLine mark change))).map (stripSuffix mark) =
      ((splitInclusive (· = mark) items).map (stripSuffix mark)).map change := by
  rw [splitInclusive_mapLine plain nonempty, List.map_map, List.map_map]
  refine List.map_congr_left fun piece member => ?_
  have interior := (isPiece_of_mem_splitInclusive member).interior
  rcases List.eq_nil_or_concat piece with rfl | ⟨line, last, rfl⟩
  · exact absurd rfl (isPiece_of_mem_splitInclusive member).nonempty
  · rw [List.concat_eq_append] at interior ⊢
    rw [List.dropLast_concat] at interior
    have unmarked : mark ∉ line := by
      intro inside
      simpa using interior mark inside
    by_cases same : last = mark
    · subst same
      rw [Function.comp_apply, Function.comp_apply, mapLine_marked,
        stripSuffix_append_singleton, stripSuffix_append_singleton]
    · have absent : mark ∉ line ++ [last] := by
        rw [List.mem_append, List.mem_singleton, not_or]
        exact ⟨unmarked, Ne.symm same⟩
      rw [Function.comp_apply, Function.comp_apply, mapLine_plain absent,
        stripSuffix_of_notMem absent, stripSuffix_of_notMem (plain _ absent)]

end MapLine

/-- Stripping an encoded element, where only it encodes to a run ending in its code. -/
theorem stripSuffix_flatMap {encode : α → List β} {element : α} {code : β}
    (encoded : encode element = [code])
    (only : ∀ other, other ≠ element →
      ∃ last, (encode other).getLast? = some last ∧ last ≠ code) (items : List α) :
    stripSuffix code (items.flatMap encode) = (stripSuffix element items).flatMap encode := by
  induction items using List.reverseRecOn with
  | nil => rfl
  | append_singleton items last =>
      rw [List.flatMap_append, List.flatMap_singleton]
      by_cases same : last = element
      · subst same
        rw [stripSuffix_append_singleton, encoded, stripSuffix_append_singleton]
      · obtain ⟨final, at_end, different⟩ := only last same
        obtain ⟨front, split⟩ := List.getLast?_eq_some_iff.mp at_end
        rw [stripSuffix_of_ne same, List.flatMap_append, List.flatMap_singleton, split,
          ← List.append_assoc, stripSuffix_of_ne different, List.append_assoc]

end Split

/-- `\n`, as a byte. -/
def newline : UInt8 := 10

/-- `\r`, as a byte. -/
def carriageReturn : UInt8 := 13

/-- One line of `str::lines`: the terminator goes, and a `\r` only before it. -/
def stripLineEnd (piece : List Char) : List Char :=
  if piece.getLast? = some '\n' then stripSuffix '\r' piece.dropLast else piece

/-- `str::lines`. -/
def lines (text : String) : List String :=
  (splitInclusive (· = '\n') text.toList).map fun piece => String.ofList (stripLineEnd piece)

/-- The lines of a text whose lines all end. -/
theorem lines_flatMap {rows : List (List Char)} (oneLine : ∀ row ∈ rows, '\n' ∉ row) :
    lines (String.ofList (rows.flatMap fun row => row ++ ['\n'])) =
      rows.map fun row => String.ofList (stripSuffix '\r' row) := by
  rw [lines, String.toList_ofList]
  induction rows with
  | nil => rfl
  | cons row rows ih =>
      have free : ∀ char ∈ row, decide (char = '\n') = false := fun char member =>
        decide_eq_false (ne_of_mem_of_not_mem member (oneLine row (by simp)))
      rw [List.flatMap_cons, List.append_assoc, List.singleton_append,
        splitInclusive_terminated free (by simp), List.map_cons, List.map_cons,
        ih fun other member => oneLine other (List.mem_cons_of_mem _ member)]
      simp [stripLineEnd]

/-- In UTF-8 a newline is one byte, and no other character has that byte in it. -/
theorem utf8_preserves_newline :
    PreservesStop (fun char => decide (char = '\n')) (fun byte => decide (byte = newline))
      String.utf8EncodeChar where
  terminator := by
    intro char stops
    obtain rfl : char = '\n' := by simpa using stops
    exact ⟨newline, by decide, by decide⟩
  other := by
    intro char continues
    refine ⟨String.utf8EncodeChar_ne_nil, fun byte member => ?_⟩
    simp only [decide_eq_false_iff_not] at continues ⊢
    rintro rfl
    have code : char.toNat = '\n'.toNat := (mem_utf8EncodeChar_of_ascii (by decide)).mp member
    exact continues (Char.toNat_inj.mp code)

/-- The last byte of a character's encoding is an ASCII byte only for that byte. -/
theorem utf8_last_ne (char : Char) {other : Char} {code : UInt8} (ascii : code.toNat < 128)
    (encodes : char.toNat = code.toNat) (different : other ≠ char) :
    ∃ last, (String.utf8EncodeChar other).getLast? = some last ∧ last ≠ code := by
  refine ⟨(String.utf8EncodeChar other).getLast String.utf8EncodeChar_ne_nil,
    List.getLast?_eq_some_getLast _, ?_⟩
  intro same
  have member : code ∈ String.utf8EncodeChar other := same ▸ List.getLast_mem _
  have := (mem_utf8EncodeChar_of_ascii ascii).mp member
  exact different (Char.toNat_inj.mp (this.trans encodes.symm))

/-- So the lines of the bytes are the bytes of the lines. -/
theorem splitInclusive_asBytes (text : String) :
    splitInclusive (· = newline) (asBytes text) =
      (splitInclusive (· = '\n') text.toList).map fun piece =>
        piece.flatMap String.utf8EncodeChar := by
  rw [asBytes_eq_flatMap]
  exact splitInclusive_flatMap utf8_preserves_newline text.toList

/-- Taking the newline off commutes with the encoding. -/
theorem stripSuffix_newline (piece : List Char) :
    stripSuffix newline (piece.flatMap String.utf8EncodeChar) =
      (stripSuffix '\n' piece).flatMap String.utf8EncodeChar :=
  stripSuffix_flatMap (by decide)
    (fun _ different => utf8_last_ne '\n' (by decide) (by decide) different) piece

/-- So does taking off the carriage return. -/
theorem stripSuffix_carriageReturn (piece : List Char) :
    stripSuffix carriageReturn (piece.flatMap String.utf8EncodeChar) =
      (stripSuffix '\r' piece).flatMap String.utf8EncodeChar :=
  stripSuffix_flatMap (by decide)
    (fun _ different => utf8_last_ne '\r' (by decide) (by decide) different) piece

end Egregore.Base
