import Egregore.Base.Lines
import Egregore.Base.Text

/-!
# Hunks of a working tree diff

`parse_unified_hunk_ranges` reads the output of `git diff --unified=0` into the line
ranges of each file. Line numbers are `u32` and their sums wrap, as in a release build.
-/

namespace Egregore

open Base

abbrev LineRange := Nat × Nat

/-- `ParsedFileHunks`. -/
structure ParsedFileHunks where
  old : List LineRange := []
  new : List (Option LineRange) := []
  counts : List (Nat × Nat) := []
  deriving DecidableEq, Repr

/-- `FileHunks`. -/
structure FileHunks where
  path : String
  hunks : ParsedFileHunks := {}
  deriving DecidableEq, Repr

/-- `HunkRanges`. -/
structure HunkRanges where
  old : LineRange
  new : Option LineRange
  counts : Nat × Nat
  deriving DecidableEq, Repr

/-- The values of a `u32`. -/
def u32Values : Nat := 2 ^ 32

/-- `str::parse::<u32>`. -/
def parseU32 (text : List Char) : Option Nat :=
  let digits := (stripPrefix ['+'] text).getD text
  if !digits.isEmpty && digits.all Char.isDigit && Nat.ofDigitChars 10 digits 0 < u32Values then
    some (Nat.ofDigitChars 10 digits 0)
  else none

/-- `parse_range_part`. -/
def parseRangePart (part : List Char) : Option LineRange :=
  match splitOnce [','] part with
  | some (start, count) => do
      let start ← parseU32 start
      let count ← parseU32 count
      return (start, count)
  | none => do
      let start ← parseU32 part
      return (start, 1)

/-- The ranges of a header with these numbers. -/
def hunkRanges (oldStart oldCount newStart newCount : Nat) : HunkRanges where
  old :=
    if oldCount = 0 then (oldStart, (oldStart + 1) % u32Values)
    else (oldStart, (oldStart + oldCount - 1) % u32Values)
  new :=
    if newCount = 0 then none
    else some (newStart, (newStart + newCount - 1) % u32Values)
  counts := (oldCount, newCount)

/-- `parse_hunk_header_both`. -/
def parseHunkHeaderBoth (header : List Char) : Option HunkRanges := do
  let inner ← stripPrefix "@@ ".toList header
  let (ranges, _) ← splitOnce " @@".toList inner
  match splitWhitespace ranges with
  | oldPart :: newPart :: _ => do
      let (oldStart, oldCount) ← parseRangePart (← stripPrefix ['-'] oldPart)
      let (newStart, newCount) ← parseRangePart (← stripPrefix ['+'] newPart)
      return hunkRanges oldStart oldCount newStart newCount
  | _ => none

/-- `equal_path_header_new_path`. -/
def equalPathHeaderNewPath (rest : List Char) : Option (List Char) := do
  if byteLength rest % 2 = 0 then none
  else
    let (old, newWithSpace) ← splitAtByte ((byteLength rest - 1) / 2) rest
    let new ← stripPrefix [' '] newWithSpace
    let oldPath ← stripPrefix "a/".toList old
    let newPath ← stripPrefix "b/".toList new
    if oldPath = newPath then some new else none

/-- `parse_diff_git_new_path`. A quoted new side ends in its quote, as git writes it; where nothing
follows the separator, or a character of several bytes ends the line, the byte slice of the source
panics and this drops what is there. -/
def parseDiffGitNewPath (rest : List Char) : List Char :=
  let path :=
    match stripPrefix ['"'] rest with
    | none =>
        match equalPathHeaderNewPath rest with
        | some path => path
        | none => (rsplitOnce ' ' rest).elim rest Prod.snd
    | some quoted =>
        match splitOnce "\" \"b/".toList quoted with
        | none => rest
        | some (_, new) => new.dropLast
  (stripPrefix "b/".toList path).getD path

/-- The files read so far, and the place of the current one. -/
structure HunkReader where
  files : List FileHunks := []
  current : Option Nat := none

/-- The ranges of one more hunk. -/
def ParsedFileHunks.push (hunks : ParsedFileHunks) (ranges : HunkRanges) : ParsedFileHunks where
  old := hunks.old ++ [ranges.old]
  new := hunks.new ++ [ranges.new]
  counts := hunks.counts ++ [ranges.counts]

/-- The current file, changed. -/
def HunkReader.updateCurrent (reader : HunkReader) (change : FileHunks → FileHunks) : HunkReader :=
  match reader.current with
  | none => reader
  | some index => { reader with files := reader.files.modify index change }

/-- A file with this path becomes the current one; a new one when there is none. -/
def HunkReader.openFile (reader : HunkReader) (path : String) : HunkReader :=
  match reader.files.findIdx? fun file => file.path = path with
  | some index => { reader with current := some index }
  | none =>
      { files := reader.files ++ [{ path := path }]
        current := some reader.files.length }

/-- The body of the loop over lines. -/
def HunkReader.readLine (reader : HunkReader) (line : List Char) : HunkReader :=
  match stripPrefix "diff --git ".toList line with
  | some rest => reader.openFile (String.ofList (parseDiffGitNewPath rest))
  | none =>
      match stripPrefix "rename to ".toList line with
      | some renamedTo =>
          reader.updateCurrent fun file => { file with path := String.ofList renamedTo }
      | none =>
          if (stripPrefix "@@ ".toList line).isSome then
            match parseHunkHeaderBoth line with
            | some ranges =>
                reader.updateCurrent fun file => { file with hunks := file.hunks.push ranges }
            | none => reader
          else reader

/-- `parse_unified_hunk_ranges`. -/
def parseUnifiedHunkRanges (text : String) : List FileHunks :=
  ((lines text).foldl (fun (reader : HunkReader) line => reader.readLine line.toList) {}).files

end Egregore
