import Egregore.WorktreeDiff
import Mathlib.Data.List.Nodup

/-!
# Whose hunks a diff's hunks are

A diff as git writes it with literal paths and no context lines. Each file comes back with its
own hunks if and only if no renamed file's header reads as the path of an earlier file, and
every line number fits its type. `parseUnifiedHunkRanges_iff` is for every list of rendered
diffs, in order and with their hunks.
-/

namespace Egregore

open Base

/-- A character that git writes as it is when `core.quotePath` is off. -/
def isLiteral (char : Char) : Bool :=
  0x20 ≤ char.toNat && char.toNat != 0x7F && char != '"' && char != '\\'

/-- A path that git does not quote. -/
structure LiteralPath where
  text : String
  literal : text.toList.all isLiteral = true

/-- A line of a file header other than a rename: a mode, a similarity, blob IDs, the names of the
two sides. -/
structure HeaderLine where
  text : List Char
  oneLine : '\n' ∉ text
  notDiff : ¬ "diff --git ".toList <+: text
  notRename : ¬ "rename to ".toList <+: text
  notHunk : ¬ "@@ ".toList <+: text

/-- What a line of a hunk's body starts with. -/
inductive LineMark where
  | added | removed | noNewline
  deriving DecidableEq

def LineMark.char : LineMark → Char
  | .added => '+'
  | .removed => '-'
  | .noNewline => '\\'

/-- A line of a hunk's body. -/
structure BodyLine where
  mark : LineMark
  text : List Char
  oneLine : '\n' ∉ text

/-- A hunk without context lines. -/
structure Hunk where
  oldStart : Nat
  oldCount : Nat
  newStart : Nat
  newCount : Nat
  /-- What follows the ranges: nothing, or the line the hunk is under. -/
  heading : List Char
  oneLine : '\n' ∉ heading
  body : List BodyLine

/-- One file of a diff. A new file and a deleted one have one path on both sides. -/
structure FileDiff where
  old : LiteralPath
  new : LiteralPath
  /-- Header lines before the two lines of a rename. -/
  before : List HeaderLine
  /-- Header lines after them. -/
  after : List HeaderLine
  hunks : List Hunk

/-- `start[,count]`; git leaves out a count of one. -/
def rangeText (start count : Nat) : List Char :=
  Nat.toDigits 10 start ++ if count = 1 then [] else ',' :: Nat.toDigits 10 count

/-- The two ranges of a hunk header. -/
def Hunk.rangesText (hunk : Hunk) : List Char :=
  '-' :: rangeText hunk.oldStart hunk.oldCount ++
    ' ' :: '+' :: rangeText hunk.newStart hunk.newCount

def Hunk.header (hunk : Hunk) : List Char :=
  "@@ ".toList ++ (hunk.rangesText ++ " @@".toList ++ hunk.heading)

def BodyLine.line (body : BodyLine) : List Char := body.mark.char :: body.text

def Hunk.lines (hunk : Hunk) : List (List Char) := hunk.header :: hunk.body.map BodyLine.line

/-- What follows `diff --git `. -/
def FileDiff.sides (diff : FileDiff) : List Char :=
  "a/".toList ++ diff.old.text.toList ++ " b/".toList ++ diff.new.text.toList

/-- The lines of a rename. -/
def FileDiff.renameLines (diff : FileDiff) : List (List Char) :=
  if diff.old.text = diff.new.text then []
  else ["rename from ".toList ++ diff.old.text.toList, "rename to ".toList ++ diff.new.text.toList]

def FileDiff.lines (diff : FileDiff) : List (List Char) :=
  ("diff --git ".toList ++ diff.sides) ::
    (diff.before.map HeaderLine.text ++ diff.renameLines ++ diff.after.map HeaderLine.text ++
      diff.hunks.flatMap Hunk.lines)

/-- The text of a diff. -/
def renderDiff (diffs : List FileDiff) : String :=
  String.ofList ((diffs.flatMap FileDiff.lines).flatMap fun line => line ++ ['\n'])

/-- The lines a hunk changes. An insertion is anchored at the two old lines around it. -/
def Hunk.ranges (hunk : Hunk) : HunkRanges where
  old := (hunk.oldStart,
    if hunk.oldCount = 0 then hunk.oldStart + 1 else hunk.oldStart + hunk.oldCount - 1)
  new := if hunk.newCount = 0 then none else some (hunk.newStart, hunk.newStart + hunk.newCount - 1)
  counts := (hunk.oldCount, hunk.newCount)

/-- The ranges of a file, side by side. -/
def ParsedFileHunks.ofRanges (ranges : List HunkRanges) : ParsedFileHunks where
  old := ranges.map HunkRanges.old
  new := ranges.map HunkRanges.new
  counts := ranges.map HunkRanges.counts

/-- The entry of a file: its new path and its own hunks. -/
def FileDiff.entry (diff : FileDiff) : FileHunks where
  path := diff.new.text
  hunks := .ofRanges (diff.hunks.map Hunk.ranges)

/-- The numbers and the ends of a hunk's ranges are `u32` values. -/
structure Hunk.Fits (hunk : Hunk) : Prop where
  oldStart : hunk.oldStart < u32Values
  oldCount : hunk.oldCount < u32Values
  newStart : hunk.newStart < u32Values
  newCount : hunk.newCount < u32Values
  oldEnd : hunk.ranges.old.2 < u32Values
  newEnd : hunk.newStart + hunk.newCount - 1 < u32Values

/-- The path that a header is read as before a rename line corrects it: the path whose header it
also is, or else what follows the last space of the new path. -/
inductive HeaderPath (old new : List Char) : List Char → Prop
  | halves {path} (same : old ++ " b/".toList ++ new = path ++ " b/".toList ++ path) :
      HeaderPath old new path
  | whole (uneven : ∀ path, old ++ " b/".toList ++ new ≠ path ++ " b/".toList ++ path)
      (word : ' ' ∉ new) : HeaderPath old new new
  | lastWord {before word}
      (uneven : ∀ path, old ++ " b/".toList ++ new ≠ path ++ " b/".toList ++ path)
      (split : new = before ++ ' ' :: word) (last : ' ' ∉ word) :
      HeaderPath old new ((stripPrefix "b/".toList word).getD word)

/-! ### Headers -/

/-- A header whose halves are one path is cut in the middle, blanks in the path or not. -/
theorem equalPathHeaderNewPath_halves (path : List Char) :
    equalPathHeaderNewPath ("a/".toList ++ (path ++ " b/".toList ++ path)) =
      some ("b/".toList ++ path) := by
  have shape : "a/".toList ++ (path ++ " b/".toList ++ path) =
      ("a/".toList ++ path) ++ ([' '] ++ ("b/".toList ++ path)) := by simp
  have half : byteLength ("a/".toList ++ path) = byteLength path + 2 := by
    rw [byteLength_append, Nat.add_comm]
    rfl
  have size : byteLength ("a/".toList ++ (path ++ " b/".toList ++ path)) =
      2 * byteLength ("a/".toList ++ path) + 1 := by
    have ends : byteLength ([' '] ++ ("b/".toList ++ path)) = byteLength path + 3 := by
      rw [← List.append_assoc, byteLength_append, Nat.add_comm]
      rfl
    rw [shape, byteLength_append, ends]
    omega
  have odd : ¬ byteLength ("a/".toList ++ (path ++ " b/".toList ++ path)) % 2 = 0 := by omega
  have middle : (byteLength ("a/".toList ++ (path ++ " b/".toList ++ path)) - 1) / 2 =
      byteLength ("a/".toList ++ path) := by omega
  rw [equalPathHeaderNewPath, if_neg odd, middle, shape, splitAtByte_append]
  simp only [Option.bind_eq_bind, Option.bind_some, stripPrefix_append, if_true]

/-- A header of a path whose two sides are the same is found to be one, and no other is. -/
theorem equalPathHeaderNewPath_eq_some_iff {sides path : List Char} :
    equalPathHeaderNewPath ("a/".toList ++ sides) = some path ↔
      ∃ side, sides = side ++ " b/".toList ++ side ∧ path = "b/".toList ++ side := by
  constructor
  · intro read
    rw [equalPathHeaderNewPath] at read
    split at read
    · cases read
    · simp only [Option.bind_eq_bind, Option.bind_eq_some_iff] at read
      obtain ⟨⟨old, newWithSpace⟩, split, new, space, oldPath, isOld, newPath, isNew, same⟩ := read
      obtain ⟨whole, -⟩ := splitAtByte_eq_some_iff.mp split
      obtain rfl := stripPrefix_eq_some_iff.mp space
      obtain rfl := stripPrefix_eq_some_iff.mp isOld
      obtain rfl := stripPrefix_eq_some_iff.mp isNew
      split at same
      · rename_i equal
        subst equal
        refine ⟨oldPath, ?_, (Option.some.inj same).symm⟩
        rw [List.append_assoc, List.append_cancel_left_eq] at whole
        rw [whole]
        simp
      · cases same
  · rintro ⟨side, rfl, rfl⟩
    exact equalPathHeaderNewPath_halves side

/-- Sides that start with `a/` are not read as quoted. -/
theorem notQuoted (sides : List Char) : stripPrefix ['"'] ("a/".toList ++ sides) = none := by
  rw [stripPrefix_eq_none_iff]
  simp

/-- Where the header falls into equal halves, the new path is the second half. -/
theorem parseDiffGitNewPath_of_halves {sides path : List Char}
    (halves : equalPathHeaderNewPath ("a/".toList ++ sides) = some path) :
    parseDiffGitNewPath ("a/".toList ++ sides) = (stripPrefix "b/".toList path).getD path := by
  simp only [parseDiffGitNewPath, notQuoted, halves]

/-- Where it does not, the new path is what follows the last blank. -/
theorem parseDiffGitNewPath_of_uneven {sides before word : List Char}
    (uneven : equalPathHeaderNewPath ("a/".toList ++ sides) = none)
    (last : rsplitOnce ' ' ("a/".toList ++ sides) = some (before, word)) :
    parseDiffGitNewPath ("a/".toList ++ sides) = (stripPrefix "b/".toList word).getD word := by
  simp only [parseDiffGitNewPath, notQuoted, uneven, last, Option.elim]

/-- What a header of a file is read as. -/
theorem parseDiffGitNewPath_sides {old new path : List Char} (reads : HeaderPath old new path) :
    parseDiffGitNewPath ("a/".toList ++ old ++ " b/".toList ++ new) = path := by
  have shape : "a/".toList ++ old ++ " b/".toList ++ new =
      "a/".toList ++ (old ++ " b/".toList ++ new) := by simp
  have uneven' : (∀ path, old ++ " b/".toList ++ new ≠ path ++ " b/".toList ++ path) →
      equalPathHeaderNewPath ("a/".toList ++ (old ++ " b/".toList ++ new)) = none := by
    intro uneven
    rw [Option.eq_none_iff_forall_ne_some]
    intro path read
    obtain ⟨side, same, -⟩ := equalPathHeaderNewPath_eq_some_iff.mp read
    exact uneven side same
  rw [shape]
  cases reads with
  | halves same =>
      rw [same, parseDiffGitNewPath_of_halves (equalPathHeaderNewPath_halves path),
        stripPrefix_append, Option.getD_some]
  | whole uneven word =>
      have absent : ' ' ∉ "b/".toList ++ new := by simp [word]
      have last : rsplitOnce ' ' ("a/".toList ++ (old ++ " b/".toList ++ new)) =
          some ("a/".toList ++ old, "b/".toList ++ new) := by
        rw [← rsplitOnce_append absent ("a/".toList ++ old)]
        simp
      rw [parseDiffGitNewPath_of_uneven (uneven' uneven) last, stripPrefix_append,
        Option.getD_some]
  | @lastWord before word uneven split last =>
      have found : rsplitOnce ' ' ("a/".toList ++ (old ++ " b/".toList ++ new)) =
          some ("a/".toList ++ (old ++ " b/".toList ++ before), word) := by
        rw [← rsplitOnce_append last, split]
        simp
      exact parseDiffGitNewPath_of_uneven (uneven' uneven) found

/-- Every pair of paths has a path that their header reads as. -/
theorem exists_headerPath (old new : List Char) : ∃ path, HeaderPath old new path := by
  by_cases even : ∃ path, old ++ " b/".toList ++ new = path ++ " b/".toList ++ path
  · obtain ⟨path, same⟩ := even
    exact ⟨path, .halves same⟩
  · have uneven := not_exists.mp even
    by_cases spaced : ' ' ∈ new
    · obtain ⟨before, word, split, last⟩ := exists_rsplit spaced
      exact ⟨_, .lastWord uneven split last⟩
    · exact ⟨_, .whole uneven spaced⟩

/-- The header is read as one path. -/
theorem parseDiffGitNewPath_eq_iff {old new path : List Char} :
    parseDiffGitNewPath ("a/".toList ++ old ++ " b/".toList ++ new) = path ↔
      HeaderPath old new path := by
  constructor
  · rintro rfl
    obtain ⟨path, reads⟩ := exists_headerPath old new
    exact (parseDiffGitNewPath_sides reads).symm ▸ reads
  · exact parseDiffGitNewPath_sides

/-! ### Hunk headers -/

/-- The decimal digits of a number hold digits only. -/
theorem notMem_toDigits {char : Char} (notDigit : char.isDigit = false) (value : Nat) :
    char ∉ Nat.toDigits 10 value := fun member => by
  simp [Nat.isDigit_of_mem_toDigits (by decide) (by decide) member] at notDigit

/-- The characters of a range. -/
theorem notMem_rangeText {char : Char} (notDigit : char.isDigit = false) (notComma : char ≠ ',')
    (start count : Nat) : char ∉ rangeText start count := by
  rw [rangeText]
  split
  · simpa using notMem_toDigits notDigit start
  · simp [notMem_toDigits notDigit, notComma]

/-- No digit separates the words of a hunk header. -/
theorem not_isWhitespace_of_isDigit {char : Char} (digit : char.isDigit = true) :
    isWhitespace char = false := by
  obtain ⟨low, high⟩ : 48 ≤ char.toNat ∧ char.toNat ≤ 57 := Char.isDigit_iff_toNat.mp digit
  rw [Bool.eq_false_iff]
  intro blank
  simp only [isWhitespace, Bool.or_eq_true, Bool.and_eq_true, decide_eq_true_eq,
    beq_iff_eq] at blank
  omega

/-- A number reads back from its digits while it fits 32 bits. -/
theorem parseU32_toDigits (value : Nat) :
    parseU32 (Nat.toDigits 10 value) = if value < u32Values then some value else none := by
  have unsigned : stripPrefix ['+'] (Nat.toDigits 10 value) = none := by
    rw [stripPrefix_eq_none_iff]
    rintro ⟨rest, split⟩
    have plus : '+' ∈ Nat.toDigits 10 value := by simp [← split]
    exact notMem_toDigits rfl value plus
  have digits : (Nat.toDigits 10 value).all Char.isDigit = true :=
    List.all_eq_true.mpr fun char member =>
      Nat.isDigit_of_mem_toDigits (by decide) (by decide) member
  have nonempty : (Nat.toDigits 10 value).isEmpty = false :=
    List.isEmpty_eq_false_iff.mpr Nat.toDigits_ne_nil
  have read : Nat.ofDigitChars 10 (Nat.toDigits 10 value) 0 = value :=
    Nat.ofDigitChars_toDigits (by decide) (by decide)
  simp only [parseU32, unsigned, Option.getD_none, digits, nonempty, read, Bool.not_false,
    Bool.and_true, decide_eq_true_eq, Bool.true_and]

/-- So does a range, with or without its count. -/
theorem parseRangePart_rangeText (start count : Nat) :
    parseRangePart (rangeText start count) =
      if start < u32Values ∧ count < u32Values then some (start, count) else none := by
  have comma : ',' ∉ Nat.toDigits 10 start := notMem_toDigits rfl start
  rw [rangeText]
  split
  · rename_i one
    subst one
    have whole : splitOnce [','] (Nat.toDigits 10 start) = none :=
      splitOnce_eq_none (List.mem_singleton_self ',') comma
    have small : 1 < u32Values := by decide
    rw [List.append_nil, parseRangePart, whole]
    simp only [parseU32_toDigits, small, and_true]
    by_cases fits : start < u32Values
    · simp only [fits, if_true]
      rfl
    · simp only [fits, if_false]
      rfl
  · rw [parseRangePart, splitOnce_append_cons comma]
    simp only [parseU32_toDigits]
    by_cases fits : start < u32Values
    · by_cases fits' : count < u32Values
      · simp only [fits, fits', if_true, and_self]
        rfl
      · simp only [fits, fits', if_true, if_false, and_false]
        rfl
    · simp only [fits, if_false, false_and]
      rfl

/-- The numbers of a hunk are `u32` values. -/
def Hunk.NumbersFit (hunk : Hunk) : Prop :=
  (hunk.oldStart < u32Values ∧ hunk.oldCount < u32Values) ∧
    hunk.newStart < u32Values ∧ hunk.newCount < u32Values

instance (hunk : Hunk) : Decidable hunk.NumbersFit := inferInstanceAs (Decidable (_ ∧ _))

/-- The ranges of a hunk are two words, one for each side. -/
theorem splitWhitespace_rangesText (hunk : Hunk) :
    splitWhitespace hunk.rangesText =
      ['-' :: rangeText hunk.oldStart hunk.oldCount,
        '+' :: rangeText hunk.newStart hunk.newCount] := by
  have solid : ∀ {mark : Char}, isWhitespace mark = false → ∀ start count,
      ∀ char ∈ mark :: rangeText start count, isWhitespace char = false := by
    intro mark visible start count char member
    rcases List.mem_cons.mp member with rfl | inside
    · exact visible
    · cases digit : char.isDigit with
      | true => exact not_isWhitespace_of_isDigit digit
      | false =>
          by_cases comma : char = ','
          · rw [comma]
            rfl
          · exact absurd inside (notMem_rangeText digit comma start count)
  rw [splitWhitespace, Hunk.rangesText,
    List.splitOnP_append_cons_of_forall_mem (solid rfl _ _) ' ' rfl,
    List.splitOnP_eq_singleton (solid rfl _ _)]
  simp

/-- The closing `@@` is the first one, whatever the heading holds. -/
theorem splitOnce_rangesText (hunk : Hunk) (heading : List Char) :
    splitOnce " @@".toList (hunk.rangesText ++ " @@".toList ++ heading) =
      some (hunk.rangesText, heading) := by
  apply splitOnce_append
  rintro char tail suffix ⟨rest, starts⟩
  have absent : '@' ∉ char :: tail := fun member => by
    have inRanges := suffix.subset member
    have inRange : ∀ start count, '@' ∉ rangeText start count := notMem_rangeText rfl (by decide)
    simp [Hunk.rangesText, inRange] at inRanges
  cases tail with
  | nil => simp at starts
  | cons next tail =>
      have : next = '@' := by
        simp at starts
        exact starts.2.1.symm
      exact absent (by simp [this])

/-- The ranges of a hunk that the parser finds. -/
theorem parseHunkHeaderBoth_header (hunk : Hunk) (heading : List Char) :
    parseHunkHeaderBoth ("@@ ".toList ++ (hunk.rangesText ++ " @@".toList ++ heading)) =
      if hunk.NumbersFit then
        some (hunkRanges hunk.oldStart hunk.oldCount hunk.newStart hunk.newCount)
      else none := by
  rw [parseHunkHeaderBoth, stripPrefix_append]
  simp only [Option.bind_eq_bind, Option.bind_some, splitOnce_rangesText,
    splitWhitespace_rangesText]
  have minus : stripPrefix ['-'] ('-' :: rangeText hunk.oldStart hunk.oldCount) =
      some (rangeText hunk.oldStart hunk.oldCount) := stripPrefix_append ['-'] _
  have plus : stripPrefix ['+'] ('+' :: rangeText hunk.newStart hunk.newCount) =
      some (rangeText hunk.newStart hunk.newCount) := stripPrefix_append ['+'] _
  simp only [minus, plus, Option.bind_some, parseRangePart_rangeText, Hunk.NumbersFit]
  by_cases old : hunk.oldStart < u32Values ∧ hunk.oldCount < u32Values
  · by_cases new : hunk.newStart < u32Values ∧ hunk.newCount < u32Values
    · simp only [old, new, and_self, if_true]
      rfl
    · simp only [old, new, and_self, and_false, if_true, if_false]
      rfl
  · simp only [old, false_and, if_false]
    rfl

/-- What the parser makes of a hunk's header line. -/
def Hunk.read (hunk : Hunk) : Option HunkRanges :=
  parseHunkHeaderBoth (stripSuffix '\r' hunk.header)

/-- A hunk header is read as its two ranges exactly when all four numbers fit. -/
theorem Hunk.read_eq (hunk : Hunk) :
    hunk.read = if hunk.NumbersFit then
        some (hunkRanges hunk.oldStart hunk.oldCount hunk.newStart hunk.newCount)
      else none := by
  have line : stripSuffix '\r' hunk.header =
      "@@ ".toList ++ (hunk.rangesText ++ " @@".toList ++ stripSuffix '\r' hunk.heading) := by
    have shape : hunk.header =
        ("@@ ".toList ++ (hunk.rangesText ++ " @@".toList)) ++ hunk.heading := by simp [header]
    have last : ("@@ ".toList ++ (hunk.rangesText ++ " @@".toList)).getLast? = some '@' := by
      rw [← List.append_assoc, List.getLast?_append]
      rfl
    rw [shape, stripSuffix_append (last ▸ by decide)]
    simp
  rw [read, line, parseHunkHeaderBoth_header]

/-- The ranges come back unless a number or the end of a range leaves its type. -/
theorem Hunk.read_eq_some_iff (hunk : Hunk) : hunk.read = some hunk.ranges ↔ hunk.Fits := by
  rw [read_eq]
  constructor
  · intro same
    split at same
    · rename_i numbers
      have same := Option.some.inj same
      refine ⟨numbers.1.1, numbers.1.2, numbers.2.1, numbers.2.2, ?_, ?_⟩
      · have old : (hunkRanges hunk.oldStart hunk.oldCount hunk.newStart hunk.newCount).old.2 =
            hunk.ranges.old.2 := by rw [same]
        rw [← old]
        simp only [hunkRanges]
        split <;> exact Nat.mod_lt _ (by decide)
      · have new : (hunkRanges hunk.oldStart hunk.oldCount hunk.newStart hunk.newCount).new =
            hunk.ranges.new := by rw [same]
        by_cases empty : hunk.newCount = 0
        · have := numbers.2.1
          omega
        · simp only [hunkRanges, ranges, empty, if_false, Option.some.injEq, Prod.mk.injEq,
            true_and] at new
          rw [← new]
          exact Nat.mod_lt _ (by decide)
    · cases same
  · intro fits
    have numbers : hunk.NumbersFit :=
      ⟨⟨fits.oldStart, fits.oldCount⟩, fits.newStart, fits.newCount⟩
    have oldEnd := fits.oldEnd
    rw [if_pos numbers]
    simp only [ranges] at oldEnd
    simp only [hunkRanges, ranges, Option.some.injEq, HunkRanges.mk.injEq, and_true]
    constructor
    · split at oldEnd
      · simp [*, Nat.mod_eq_of_lt]
      · simp [*, Nat.mod_eq_of_lt]
    · rw [Nat.mod_eq_of_lt fits.newEnd]

/-! ### Reading a file -/

namespace HunkReader

variable (reader : HunkReader)

/-- A change that changes nothing leaves the reader alone. -/
@[simp] theorem updateCurrent_self : reader.updateCurrent (fun file => file) = reader := by
  cases reader with
  | mk files current =>
      cases current with
      | none => rfl
      | some index =>
          have same : files.modify index (fun file => file) = files := List.modify_id index files
          simp only [updateCurrent, same]

/-- Two changes of the current file are one. -/
@[simp] theorem updateCurrent_updateCurrent (first second : FileHunks → FileHunks) :
    (reader.updateCurrent first).updateCurrent second =
      reader.updateCurrent fun file => second (first file) := by
  cases reader with
  | mk files current =>
      cases current with
      | none => rfl
      | some index => simp [updateCurrent, List.modify_modify_eq, Function.comp_def]

/-- A `diff --git` line opens the file that its header names. -/
theorem readLine_diff (rest : List Char) :
    reader.readLine ("diff --git ".toList ++ rest) =
      reader.openFile (String.ofList (parseDiffGitNewPath rest)) := by
  rw [readLine, stripPrefix_append]

/-- A `rename to` line renames the current file. -/
theorem readLine_rename (path : List Char) :
    reader.readLine ("rename to ".toList ++ path) =
      reader.updateCurrent fun file => { file with path := String.ofList path } := by
  have other : stripPrefix "diff --git ".toList ("rename to ".toList ++ path) = none := rfl
  simp only [readLine, other, stripPrefix_append]

/-- A hunk header adds its ranges to the current file, if it can be read. -/
theorem readLine_hunk (rest : List Char) :
    reader.readLine ("@@ ".toList ++ rest) =
      match parseHunkHeaderBoth ("@@ ".toList ++ rest) with
      | some ranges =>
          reader.updateCurrent fun file => { file with hunks := file.hunks.push ranges }
      | none => reader := by
  have notDiff : stripPrefix "diff --git ".toList ("@@ ".toList ++ rest) = none := rfl
  have notRename : stripPrefix "rename to ".toList ("@@ ".toList ++ rest) = none := rfl
  cases read : parseHunkHeaderBoth ("@@ ".toList ++ rest) with
  | none =>
      simp only [readLine, notDiff, notRename, stripPrefix_append, Option.isSome_some, if_true, read]
  | some ranges =>
      simp only [readLine, notDiff, notRename, stripPrefix_append, Option.isSome_some, if_true, read]

/-- Any other line says nothing. -/
theorem readLine_other {line : List Char} (notDiff : ¬ "diff --git ".toList <+: line)
    (notRename : ¬ "rename to ".toList <+: line) (notHunk : ¬ "@@ ".toList <+: line) :
    reader.readLine line = reader := by
  rw [← stripPrefix_eq_none_iff] at notDiff notRename notHunk
  simp only [readLine, notDiff, notRename, notHunk, Option.isSome_none, Bool.false_eq_true,
    if_false]

/-- The lines as `lines` gives them. -/
def readLines (lines : List (List Char)) : HunkReader :=
  lines.foldl (fun reader line => reader.readLine (stripSuffix '\r' line)) reader

/-- Without lines the reader stays where it is. -/
@[simp] theorem readLines_nil : reader.readLines [] = reader := rfl

/-- The reader takes a line at a time, without its carriage return. -/
@[simp] theorem readLines_cons (line : List Char) (lines : List (List Char)) :
    reader.readLines (line :: lines) =
      (reader.readLine (stripSuffix '\r' line)).readLines lines := rfl

/-- Reading is a fold over the lines, so it can be cut anywhere. -/
@[simp] theorem readLines_append (lines more : List (List Char)) :
    reader.readLines (lines ++ more) = (reader.readLines lines).readLines more :=
  List.foldl_append

end HunkReader

/-- Stripping a suffix keeps a prefix of the line. -/
theorem stripSuffix_prefix (element : Char) (line : List Char) :
    stripSuffix element line <+: line := by
  rcases eq_stripSuffix_or element line with same | longer
  · exact same ▸ List.prefix_refl line
  · exact ⟨[element], longer.symm⟩

/-- The extended header lines other than renames tell the reader nothing. -/
theorem readLines_header (reader : HunkReader) (lines : List HeaderLine) :
    reader.readLines (lines.map HeaderLine.text) = reader := by
  induction lines with
  | nil => rfl
  | cons line lines ih =>
      have short := stripSuffix_prefix '\r' line.text
      rw [List.map_cons, HunkReader.readLines_cons, reader.readLine_other
        (fun starts => line.notDiff (starts.trans short))
        (fun starts => line.notRename (starts.trans short))
        (fun starts => line.notHunk (starts.trans short)), ih]

/-- Nor do the lines of a hunk's body, whatever they hold. -/
theorem readLines_body (reader : HunkReader) (body : List BodyLine) :
    reader.readLines (body.map BodyLine.line) = reader := by
  induction body with
  | nil => rfl
  | cons line body ih =>
      have marked : stripSuffix '\r' line.line = line.mark.char :: stripSuffix '\r' line.text := by
        have ends : [line.mark.char].getLast? ≠ some '\r' := by cases line.mark <;> decide
        exact stripSuffix_append ends line.text
      rw [List.map_cons, HunkReader.readLines_cons, marked, reader.readLine_other, ih]
      all_goals cases line.mark <;> simp [LineMark.char]

/-- A hunk as rendered adds what its header reads as. -/
theorem readLines_hunk (reader : HunkReader) (hunk : Hunk) :
    reader.readLines hunk.lines = reader.updateCurrent fun file =>
      { file with hunks := hunk.read.toList.foldl ParsedFileHunks.push file.hunks } := by
  have line : ∃ rest, stripSuffix '\r' hunk.header = "@@ ".toList ++ rest :=
    ⟨_, stripSuffix_append (by simp) _⟩
  obtain ⟨rest, line⟩ := line
  rw [Hunk.lines, HunkReader.readLines_cons, readLines_body, line, HunkReader.readLine_hunk, ← line]
  change (match hunk.read with | some ranges => _ | none => _) = _
  cases hunk.read with
  | none => simp
  | some ranges => rfl

/-- The hunks of a file add their ranges in order. -/
theorem readLines_hunks (reader : HunkReader) (hunks : List Hunk) :
    reader.readLines (hunks.flatMap Hunk.lines) = reader.updateCurrent fun file =>
      { file with hunks := (hunks.filterMap Hunk.read).foldl ParsedFileHunks.push file.hunks } := by
  induction hunks generalizing reader with
  | nil => simp
  | cons hunk hunks ih =>
      rw [List.flatMap_cons, HunkReader.readLines_append, readLines_hunk, ih]
      cases read : hunk.read with
      | none => simp [read]
      | some ranges => simp [read]

/-- The ranges of one more hunk go to the end of both lists. -/
theorem push_ofRanges (ranges : List HunkRanges) (next : HunkRanges) :
    (ParsedFileHunks.ofRanges ranges).push next = .ofRanges (ranges ++ [next]) := by
  simp [ParsedFileHunks.push, ParsedFileHunks.ofRanges]

/-- Pushed one after the other, the ranges are appended. -/
theorem foldl_push_ofRanges (ranges more : List HunkRanges) :
    more.foldl ParsedFileHunks.push (.ofRanges ranges) = .ofRanges (ranges ++ more) := by
  induction more generalizing ranges with
  | nil => simp
  | cons next more ih => rw [List.foldl_cons, push_ofRanges, ih, List.append_assoc]; rfl

/-- The lists of old and new ranges determine the ranges. -/
theorem ofRanges_inj {ranges others : List HunkRanges}
    (same : ParsedFileHunks.ofRanges ranges = .ofRanges others) : ranges = others := by
  simp only [ParsedFileHunks.ofRanges, ParsedFileHunks.mk.injEq] at same
  obtain ⟨old, new, counts⟩ := same
  have length : ranges.length = others.length := by simpa using congrArg List.length old
  apply List.ext_getElem length
  intro index inRanges inOthers
  have at_ : ∀ {β : Type} (field : HunkRanges → β), ranges.map field = others.map field →
      field ranges[index] = field others[index] := by
    intro β field same
    simpa [inRanges, inOthers] using congrArg (fun list => list[index]?) same
  calc ranges[index] = ⟨ranges[index].old, ranges[index].new, ranges[index].counts⟩ := rfl
    _ = ⟨others[index].old, others[index].new, others[index].counts⟩ := by
      rw [at_ HunkRanges.old old, at_ HunkRanges.new new, at_ HunkRanges.counts counts]
    _ = others[index] := rfl

/-! ### Reading a diff -/

/-- The path that the header of a file is read as. -/
def FileDiff.guess (diff : FileDiff) : String :=
  String.ofList (parseDiffGitNewPath diff.sides)

/-- The entry of a file when no other is in its way. -/
def FileDiff.read (diff : FileDiff) : FileHunks where
  path := diff.new.text
  hunks := .ofRanges (diff.hunks.filterMap Hunk.read)

/-- What the lines after the header make of the current entry. -/
def FileDiff.finish (diff : FileDiff) (file : FileHunks) : FileHunks where
  path := if diff.old.text = diff.new.text then file.path else diff.new.text
  hunks := (diff.hunks.filterMap Hunk.read).foldl ParsedFileHunks.push file.hunks

/-- A literal path has no carriage return to lose. -/
theorem LiteralPath.stripSuffix_eq (path : LiteralPath) :
    stripSuffix '\r' path.text.toList = path.text.toList :=
  stripSuffix_of_notMem fun member => absurd (List.all_eq_true.mp path.literal _ member) (by decide)

/-- The rename lines give a renamed file its new path, and only such a file. -/
theorem readLines_rename (reader : HunkReader) (diff : FileDiff) :
    reader.readLines diff.renameLines = reader.updateCurrent fun file =>
      { file with path := if diff.old.text = diff.new.text then file.path else diff.new.text } := by
  rw [FileDiff.renameLines]
  split
  · rename_i same
    simp
  · have from_ : stripSuffix '\r' ("rename from ".toList ++ diff.old.text.toList) =
        "rename from ".toList ++ diff.old.text.toList := by
      rw [stripSuffix_append (by decide), diff.old.stripSuffix_eq]
    have to_ : stripSuffix '\r' ("rename to ".toList ++ diff.new.text.toList) =
        "rename to ".toList ++ diff.new.text.toList := by
      rw [stripSuffix_append (by decide), diff.new.stripSuffix_eq]
    rw [HunkReader.readLines_cons, HunkReader.readLines_cons, HunkReader.readLines_nil, from_, to_,
      reader.readLine_other (by simp) (by simp) (by simp), HunkReader.readLine_rename,
      String.ofList_toList]

/-- A file's diff opens the file its header names, and then finishes it. -/
theorem readLines_diff (reader : HunkReader) (diff : FileDiff) :
    reader.readLines diff.lines = (reader.openFile diff.guess).updateCurrent diff.finish := by
  have line : stripSuffix '\r' ("diff --git ".toList ++ diff.sides) =
      "diff --git ".toList ++ diff.sides := by
    have shape : "diff --git ".toList ++ diff.sides =
        ("diff --git ".toList ++ ("a/".toList ++ diff.old.text.toList ++ " b/".toList)) ++
          diff.new.text.toList := by simp [FileDiff.sides]
    have last : ("diff --git ".toList ++
        ("a/".toList ++ diff.old.text.toList ++ " b/".toList)).getLast? = some '/' := by
      rw [← List.append_assoc, List.getLast?_append]
      rfl
    rw [shape, stripSuffix_append (last ▸ by decide), diff.new.stripSuffix_eq]
  rw [FileDiff.lines, HunkReader.readLines_cons, line, HunkReader.readLine_diff]
  simp only [HunkReader.readLines_append, readLines_header, readLines_rename, readLines_hunks,
    HunkReader.updateCurrent_updateCurrent]
  rfl

namespace HunkReader

variable (reader : HunkReader)

/-- A path not seen before opens an entry at the end. -/
theorem openFile_of_absent {path : String} (absent : path ∉ reader.files.map FileHunks.path) :
    reader.openFile path =
      { files := reader.files ++ [{ path := path }]
        current := some reader.files.length } := by
  have none : reader.files.findIdx? (fun file => file.path = path) = none := by
    rw [List.findIdx?_eq_none_iff]
    intro file member
    simp only [decide_eq_false_iff_not]
    rintro rfl
    exact absent (List.mem_map_of_mem member)
  simp only [openFile, none]

/-- A path that is there already gets no new entry. -/
theorem length_openFile_of_mem {path : String} (present : path ∈ reader.files.map FileHunks.path) :
    (reader.openFile path).files.length = reader.files.length := by
  cases found : reader.files.findIdx? fun file => file.path = path with
  | none =>
      obtain ⟨file, member, rfl⟩ := List.mem_map.mp present
      simpa using List.findIdx?_eq_none_iff.mp found file member
  | some index => simp only [openFile, found]

/-- Opening a file adds one entry at most: a path seen before adds none. -/
theorem length_openFile_le (path : String) :
    (reader.openFile path).files.length ≤ reader.files.length + 1 := by
  by_cases present : path ∈ reader.files.map FileHunks.path
  · rw [length_openFile_of_mem reader present]
    omega
  · rw [openFile_of_absent reader present, List.length_append]
    rfl

/-- A change of the current file keeps the number of files. -/
@[simp] theorem length_updateCurrent (change : FileHunks → FileHunks) :
    (reader.updateCurrent change).files.length = reader.files.length := by
  unfold updateCurrent
  cases reader.current with
  | none => rfl
  | some index => exact List.length_modify change _ index

end HunkReader

/-- The path that a file is opened under is the one its header reads as. -/
theorem FileDiff.headerPath_guess (diff : FileDiff) :
    HeaderPath diff.old.text.toList diff.new.text.toList diff.guess.toList := by
  rw [guess, String.toList_ofList]
  exact parseDiffGitNewPath_eq_iff.mp rfl

/-- It is the only one. -/
theorem FileDiff.guess_eq_iff (diff : FileDiff) {path : String} :
    diff.guess = path ↔ HeaderPath diff.old.text.toList diff.new.text.toList path.toList := by
  constructor
  · rintro rfl
    exact diff.headerPath_guess
  · intro reads
    have same := (parseDiffGitNewPath_eq_iff.mpr reads).symm.trans
      (parseDiffGitNewPath_eq_iff.mpr diff.headerPath_guess)
    exact (String.toList_inj.mp same).symm

/-- Without a rename the header names the file. -/
theorem FileDiff.guess_of_same (diff : FileDiff) (same : diff.old.text = diff.new.text) :
    diff.guess = diff.new.text :=
  diff.guess_eq_iff.mpr (.halves (by rw [same]))

/-- Changing the entry at the end changes the last one. -/
theorem modify_append_singleton {α : Type*} (items : List α) (last : α) (change : α → α) :
    (items ++ [last]).modify items.length change = items ++ [change last] := by
  induction items with
  | nil => rfl
  | cons head tail ih => simp [ih]

/-- Where no entry has the path of the header, the diff adds its own entry. -/
theorem readLines_diff_of_absent (reader : HunkReader) (diff : FileDiff)
    (absent : diff.guess ∉ reader.files.map FileHunks.path) :
    (reader.readLines diff.lines).files = reader.files ++ [diff.read] := by
  have finished : diff.finish { path := diff.guess } = diff.read := by
    have hunks := foldl_push_ofRanges [] (diff.hunks.filterMap Hunk.read)
    have path : (if diff.old.text = diff.new.text then diff.guess else diff.new.text) =
        diff.new.text := by
      split
      · exact diff.guess_of_same ‹_›
      · rfl
    rw [FileDiff.finish, FileDiff.read, path]
    exact congrArg (FileHunks.mk diff.new.text) hunks
  rw [readLines_diff, HunkReader.openFile_of_absent reader absent]
  simp only [HunkReader.updateCurrent, modify_append_singleton, finished]

/-- A file whose header reads as the path of an earlier file. -/
def Clashes (diffs : List FileDiff) : Prop :=
  ∃ earlier diff later, diffs = earlier ++ diff :: later ∧ ∃ other ∈ earlier,
    HeaderPath diff.old.text.toList diff.new.text.toList other.new.text.toList

/-- One more diff clashes when its header names a path of the diffs before it. -/
theorem clashes_append_singleton {diffs : List FileDiff} {diff : FileDiff} :
    Clashes (diffs ++ [diff]) ↔
      Clashes diffs ∨ diff.guess ∈ diffs.map fun other => other.new.text := by
  constructor
  · rintro ⟨earlier, clash, later, split, other, member, reads⟩
    rcases List.eq_nil_or_concat later with rfl | ⟨later, last, rfl⟩
    · obtain ⟨rfl, same⟩ := List.append_inj' split rfl
      obtain rfl : diff = clash := by simpa using same
      exact Or.inr (List.mem_map.mpr ⟨other, member, (diff.guess_eq_iff.mpr reads).symm⟩)
    · have shape : diffs ++ [diff] = (earlier ++ clash :: later) ++ [last] := by
        rw [split]
        simp
      obtain ⟨rfl, -⟩ := List.append_inj' shape rfl
      exact Or.inl ⟨earlier, clash, later, rfl, other, member, reads⟩
  · rintro (⟨earlier, clash, later, rfl, other, member, reads⟩ | found)
    · exact ⟨earlier, clash, later ++ [diff], by simp, other, member, reads⟩
    · obtain ⟨other, member, same⟩ := List.mem_map.mp found
      exact ⟨diffs, diff, [], rfl, other, member, diff.guess_eq_iff.mp same.symm⟩

/-- Without a clash every file gets its entry; with one there are too few entries. -/
theorem readLines_diffs (diffs : List FileDiff) :
    (¬ Clashes diffs →
      (HunkReader.readLines {} (diffs.flatMap FileDiff.lines)).files = diffs.map FileDiff.read) ∧
    (Clashes diffs →
      (HunkReader.readLines {} (diffs.flatMap FileDiff.lines)).files.length < diffs.length) := by
  induction diffs using List.reverseRecOn with
  | nil =>
      refine ⟨fun _ => rfl, ?_⟩
      rintro ⟨earlier, diff, later, split, -⟩
      simp at split
  | append_singleton diffs diff ih =>
      rw [clashes_append_singleton, List.flatMap_append, List.flatMap_singleton,
        HunkReader.readLines_append]
      generalize HunkReader.readLines {} (diffs.flatMap FileDiff.lines) = reader at ih
      have grows : (reader.readLines diff.lines).files.length ≤ reader.files.length + 1 := by
        rw [readLines_diff, HunkReader.length_updateCurrent]
        exact reader.length_openFile_le _
      rw [List.length_append, List.length_singleton, List.map_append, List.map_singleton]
      by_cases clash : Clashes diffs
      · have short := ih.2 clash
        exact ⟨fun free => absurd (Or.inl clash) free, fun _ => by omega⟩
      · have exact_ := ih.1 clash
        have paths : reader.files.map FileHunks.path = diffs.map fun other => other.new.text := by
          rw [exact_, List.map_map]
          rfl
        constructor
        · intro free
          have absent : diff.guess ∉ reader.files.map FileHunks.path := by
            rw [paths]
            exact fun found => free (Or.inr found)
          rw [readLines_diff_of_absent reader diff absent, exact_]
        · rintro (again | found)
          · exact absurd again clash
          · rw [readLines_diff, HunkReader.length_updateCurrent,
              reader.length_openFile_of_mem (paths ▸ found), exact_, List.length_map]
            omega

/-! ### The text of a diff -/

/-- A literal path stays on its line. -/
theorem LiteralPath.oneLine (path : LiteralPath) : '\n' ∉ path.text.toList := fun member =>
  absurd (List.all_eq_true.mp path.literal _ member) (by decide)

/-- No line of a rendered hunk holds a newline. -/
theorem Hunk.oneLine_lines (hunk : Hunk) : ∀ line ∈ hunk.lines, '\n' ∉ line := by
  intro line member
  rcases List.mem_cons.mp member with rfl | member
  · have digits : ∀ start count, '\n' ∉ rangeText start count :=
      notMem_rangeText rfl (by decide)
    simp [header, rangesText, digits, hunk.oneLine]
  · obtain ⟨body, -, rfl⟩ := List.mem_map.mp member
    cases mark : body.mark <;> simp [BodyLine.line, mark, LineMark.char, body.oneLine]

/-- No line of a rendered diff does. -/
theorem FileDiff.oneLine_lines (diff : FileDiff) : ∀ line ∈ diff.lines, '\n' ∉ line := by
  have old := diff.old.oneLine
  have new := diff.new.oneLine
  have header : ∀ lines : List HeaderLine, ∀ line ∈ lines.map HeaderLine.text, '\n' ∉ line := by
    intro lines line member
    obtain ⟨header, -, rfl⟩ := List.mem_map.mp member
    exact header.oneLine
  have rename : ∀ line ∈ diff.renameLines, '\n' ∉ line := by
    intro line member
    rw [renameLines] at member
    split at member
    · cases member
    · simp only [List.mem_cons, List.not_mem_nil, or_false] at member
      rcases member with rfl | rfl
      · simp [old]
      · simp [new]
  intro line member
  simp only [lines, List.mem_cons, List.mem_append, List.mem_flatMap] at member
  rcases member with rfl | ((before | renamed) | after) | ⟨hunk, -, inside⟩
  · simp [sides, old, new]
  · exact header _ line before
  · exact rename line renamed
  · exact header _ line after
  · exact hunk.oneLine_lines line inside

/-- Parsing a rendered diff is reading its lines: the newlines of the rendering are the only ones.
-/
theorem parseUnifiedHunkRanges_renderDiff (diffs : List FileDiff) :
    parseUnifiedHunkRanges (renderDiff diffs) =
      (HunkReader.readLines {} (diffs.flatMap FileDiff.lines)).files := by
  have oneLine : ∀ line ∈ diffs.flatMap FileDiff.lines, '\n' ∉ line := by
    intro line member
    obtain ⟨diff, -, inside⟩ := List.mem_flatMap.mp member
    exact diff.oneLine_lines line inside
  rw [parseUnifiedHunkRanges, renderDiff, lines_flatMap oneLine, List.foldl_map,
    HunkReader.readLines]
  simp only [String.toList_ofList]

/-- A partial reading that keeps every item reads each of them. -/
theorem filterMap_eq_map_iff {α β : Type*} {some? : α → Option β} {all : α → β} {items : List α} :
    items.filterMap some? = items.map all ↔ ∀ item ∈ items, some? item = some (all item) := by
  induction items with
  | nil => simp
  | cons item items ih =>
      cases found : some? item with
      | none =>
          have short := List.length_filterMap_le some? items
          constructor
          · intro same
            have := congrArg List.length same
            simp only [List.filterMap_cons, found, List.length_map, List.length_cons] at this
            omega
          · intro each
            have := each item (by simp)
            simp [found] at this
      | some value => simp [found, ih]

/-- A file is read as it was rendered exactly when the numbers of its hunks fit. -/
theorem FileDiff.read_eq_entry_iff (diff : FileDiff) :
    diff.read = diff.entry ↔ ∀ hunk ∈ diff.hunks, hunk.Fits := by
  simp only [← Hunk.read_eq_some_iff]
  rw [← filterMap_eq_map_iff]
  constructor
  · intro same
    exact ofRanges_inj (congrArg FileHunks.hunks same)
  · intro same
    rw [read, entry, same]

/-- Entries that agree on distinct keys are the same whatever their order. -/
theorem map_perm_map_iff {α β γ : Type*} {items : List α} {first second : α → β} {key : β → γ}
    (agree : ∀ item, key (first item) = key (second item))
    (distinct : (items.map fun item => key (second item)).Nodup) :
    (items.map first).Perm (items.map second) ↔ ∀ item ∈ items, first item = second item := by
  constructor
  · intro same item member
    obtain ⟨other, member', equal⟩ :=
      List.mem_map.mp (same.mem_iff.mp (List.mem_map_of_mem member))
    have keys : key (second other) = key (second item) := by rw [equal, agree]
    rw [← equal, List.inj_on_of_nodup_map distinct member' member keys]
  · intro each
    rw [List.map_congr_left each]

/-- Every file comes back with its own hunks if and only if no header reads as the path of an
earlier file and all line numbers fit. -/
theorem parseUnifiedHunkRanges_iff {diffs : List FileDiff}
    (distinct : (diffs.map fun diff => diff.new.text).Nodup) :
    (parseUnifiedHunkRanges (renderDiff diffs)).Perm (diffs.map FileDiff.entry) ↔
      ¬ Clashes diffs ∧ ∀ diff ∈ diffs, ∀ hunk ∈ diff.hunks, hunk.Fits := by
  rw [parseUnifiedHunkRanges_renderDiff]
  by_cases clash : Clashes diffs
  · have short := (readLines_diffs diffs).2 clash
    constructor
    · intro same
      have := same.length_eq
      rw [List.length_map] at this
      omega
    · exact fun free => absurd clash free.1
  · have fits : (∀ diff ∈ diffs, diff.read = diff.entry) ↔
        ∀ diff ∈ diffs, ∀ hunk ∈ diff.hunks, hunk.Fits :=
      forall₂_congr fun diff _ => diff.read_eq_entry_iff
    have keys : ∀ diff : FileDiff, diff.read.path = diff.entry.path := fun _ => rfl
    rw [(readLines_diffs diffs).1 clash, map_perm_map_iff keys distinct, fits]
    exact (and_iff_right clash).symm

/-- A modified file and a rename whose new path ends in a space and the modified file's path. -/
def spacedRename : List FileDiff :=
  [{ old := ⟨"file.rs", by decide⟩
     new := ⟨"file.rs", by decide⟩
     before := []
     after := []
     hunks := [{ oldStart := 3, oldCount := 1, newStart := 3, newCount := 1, heading := [],
                 oneLine := by decide, body := [] }] },
   { old := ⟨"old.rs", by decide⟩
     new := ⟨"my file.rs", by decide⟩
     before := []
     after := []
     hunks := [{ oldStart := 7, oldCount := 1, newStart := 7, newCount := 1, heading := [],
                 oneLine := by decide, body := [] }] }]

/-- The rename takes over the modified file's entry. -/
theorem spacedRename_merged :
    (parseUnifiedHunkRanges (renderDiff spacedRename)).map FileHunks.path = ["my file.rs"] ∧
      ¬ (parseUnifiedHunkRanges (renderDiff spacedRename)).Perm
        (spacedRename.map FileDiff.entry) := by
  have merged : (parseUnifiedHunkRanges (renderDiff spacedRename)).map FileHunks.path =
      ["my file.rs"] := by decide +kernel
  refine ⟨merged, fun same => ?_⟩
  have length := same.length_eq
  rw [← List.length_map (f := FileHunks.path), merged] at length
  exact absurd length (by decide)

/-- A rename to a path with blanks, beside a file of the path that its header then names. -/
theorem spacedRename_iff :
    (parseUnifiedHunkRanges (renderDiff spacedRename)).Perm (spacedRename.map FileDiff.entry) ↔
      ¬ Clashes spacedRename ∧ ∀ diff ∈ spacedRename, ∀ hunk ∈ diff.hunks, hunk.Fits :=
  parseUnifiedHunkRanges_iff (by decide)

end Egregore
