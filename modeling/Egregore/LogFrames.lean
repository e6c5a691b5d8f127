import Egregore.Base.Lines
import Egregore.RedactionMarkers
import Egregore.WorktreeDiff
import Mathlib.Data.List.ModifyLast

/-!
# Stack frames

`log_graph.rs`: the frames of a backtrace in the text of an occurrence, and the path that a frame
keeps. The root is the canonical one, with forward slashes; the digest of a redacted text is a
parameter.
-/

namespace Egregore

open Base Redaction

/-- `MAX_FRAMES`. -/
def maxFrames : Nat := 64

/-- `FRAME_TEXT_MAX_CHARS`. -/
def frameTextMaxChars : Nat := 200

/-- `StackFrame`. -/
structure StackFrame where
  frameIndex : Nat
  modulePath : Option String
  filePath : Option String
  line : Option Nat
  deriving DecidableEq, Repr

section Texts

/-- `truncate_chars`. -/
def truncateChars (text : String) (max : Nat) : String :=
  if text.toList.length ≤ max then text else String.ofList (text.toList.take max)

/-- `truncate_frame_text`. -/
def truncateFrameText (text : String) : String := truncateChars text frameTextMaxChars

variable (blake3 : String → Vector UInt8 32)

/-- A text of a frame as it is stored: redacted, then truncated. -/
def storedFrameText (text : List Char) : String :=
  truncateFrameText (redactValue blake3 (String.ofList text))

/-- `redact_frame_text`. -/
def redactFrameText (text : List Char) : Option String :=
  if (trim text).isEmpty then none else some (storedFrameText blake3 (trim text))

end Texts

/-! ## Paths -/

section Paths

/-- `EXTERNAL_PATH_ANCHORS`. -/
def externalPathAnchors : List String := ["/rustc/", "/registry/", "/.cargo/", "/.rustup/", "/git/"]

/-- `str::replace`, of backslashes with slashes. -/
def forwardSlashes (path : List Char) : List Char :=
  path.map fun char => if char = '\\' then '/' else char

/-- `is_windows_absolute`. -/
def isWindowsAbsolute : List Char → Bool
  | drive :: colon :: _ => drive.isAlpha && colon = ':'
  | _ => false

/-- What is left of a path once the text of the root and the slashes after it are cut off. -/
def repoRelative (rootStr path : List Char) : Option (List Char) :=
  match stripPrefix rootStr path with
  | none => none
  | some stripped =>
      let rel := stripped.dropWhile (· = '/')
      if rel.isEmpty then none else some rel

/-- A path from its first anchor on, without the slash that leads it. -/
def fromAnchor (path : List Char) : Option (List Char) :=
  externalPathAnchors.findSome? fun anchor =>
    (splitOnce anchor.toList path).map fun (_, after) => anchor.toList.tail ++ after

/-- The part of a path that is stored. -/
def framePath (rootStr path : List Char) : List Char :=
  match repoRelative rootStr path with
  | some rel => rel
  | none =>
      if path.head? ≠ some '/' ∧ !isWindowsAbsolute path then path
      else (fromAnchor path).getD path

/-- `normalize_frame_path`. -/
def normalizeFramePath (blake3 : String → Vector UInt8 32) (rootStr raw : List Char) :
    Option String :=
  if (trim raw).isEmpty then none
  else some (storedFrameText blake3 (framePath rootStr (forwardSlashes (trim raw))))

end Paths

/-! ## Frames -/

section Frames

/-- `parse_frame_header`. -/
def parseFrameHeader (line : List Char) : Option (Nat × List Char) := do
  let (number, rest) ← splitOnce [':'] line
  let number := trim number
  if number.isEmpty || !number.all Char.isDigit then none
  else
    let index ← parseU32 number
    let module := trim rest
    if module.isEmpty || startsWith "at " module then none else some (index, module)

/-- A token of digits. -/
def isNumeric (token : List Char) : Bool := !token.isEmpty && token.all Char.isDigit

/-- `parse_frame_location`: the file, and the line before an optional column. -/
def parseFrameLocation (line : List Char) : Option (List Char × Option Nat) := do
  let rest ← stripPrefix "at ".toList line
  let rest := trim rest
  if rest.isEmpty then none
  else
    match rsplitOnce ':' rest with
    | none => some (rest, none)
    | some (path, last) =>
        if isNumeric last then
          match rsplitOnce ':' path with
          | some (file, mid) =>
              if isNumeric mid then some (file, parseU32 mid) else some (path, parseU32 last)
          | none => some (path, parseU32 last)
        else some (rest, none)

variable (blake3 : String → Vector UInt8 32) (rootStr : List Char)

/-- The frame of a header. -/
def headerFrame (index : Nat) (module : List Char) : StackFrame where
  frameIndex := index
  modulePath := redactFrameText blake3 module
  filePath := none
  line := none

/-- A frame with a location, unless it has one. -/
def locateFrame (file : List Char) (line : Option Nat) (frame : StackFrame) : StackFrame :=
  if frame.filePath.isNone then
    { frame with
      filePath := normalizeFramePath blake3 rootStr file
      line := line }
  else frame

/-- The loop of `parse_frames`. -/
def parseFrameLines (frames : List StackFrame) : List String → List StackFrame
  | [] => frames
  | line :: rest =>
      match parseFrameHeader (trim line.toList) with
      | some (index, module) =>
          if frames.length ≥ maxFrames then frames
          else parseFrameLines (frames ++ [headerFrame blake3 index module]) rest
      | none =>
          match parseFrameLocation (trim line.toList) with
          | some (file, line) =>
              parseFrameLines (frames.modifyLast (locateFrame blake3 rootStr file line)) rest
          | none => parseFrameLines frames rest

/-- `parse_frames`. -/
def parseFrames (fullText : String) : List StackFrame :=
  parseFrameLines blake3 rootStr [] (lines fullText)

end Frames

end Egregore
