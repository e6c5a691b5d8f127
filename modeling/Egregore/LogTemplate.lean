import Egregore.Base.Matcher

/-!
# Log templates

The `template-v1` normalization replaces the variable spans of a log message by placeholders. A scan
from left to right tries the matchers in their order at each position. A position is the character
before it, if any, and the characters that remain.
-/

namespace Egregore.LogTemplate

open Base Base.Matcher

section Boundaries

def isWord (char : Char) : Bool := char.isAlphanum || char = '_'

/-- `is_ascii_hexdigit`. -/
def isHexDigit (char : Char) : Bool :=
  char.isDigit || ('a' ≤ char && char ≤ 'f') || ('A' ≤ char && char ≤ 'F')

/-- A token may start where no word is before. -/
def tokenStart (previous : Option Char) : Bool := previous.all fun char => !isWord char

/-- Nothing, where no token may start. -/
def atTokenStart (previous : Option Char) (matcher : Matcher) : Matcher :=
  fun text => if tokenStart previous then matcher text else none

/-- `boundary_after`, as a condition on a match. -/
abbrev bounded (matcher : Matcher) : Matcher := endingBefore isWord matcher

def exactDigits (count : Nat) : Matcher := exactly Char.isDigit count

def someDigits : Matcher := oneOrMore Char.isDigit

end Boundaries

section Timestamps

/-- The time of day `HH:MM:SS`. -/
def timeOfDay : Matcher := fun text => do
  let text ← exactDigits 2 text
  let text ← lit ':' text
  let text ← exactDigits 2 text
  let text ← lit ':' text
  exactDigits 2 text

/-- The offset after its sign: `HHMM` or `HH:MM`. -/
def zoneOffset : Matcher := fun text => do
  let text ← exactDigits 2 text
  let text ← optionally ':' some text
  exactDigits 2 text

/-- The zone, if there is one. -/
def zone : Matcher
  | 'Z' :: text => some text
  | '+' :: text => zoneOffset text
  | '-' :: text => zoneOffset text
  | text => some text

/-- What separates the date from the time. -/
def dateMark : Matcher := oneOf [lit 'T', lit ' ']

def matchIso : Matcher := fun text => do
  let text ← exactDigits 4 text
  let text ← lit '-' text
  let text ← exactDigits 2 text
  let text ← lit '-' text
  let text ← exactDigits 2 text
  let text ← dateMark text
  let text ← timeOfDay text
  let text ← optionally '.' someDigits text
  zone text

def matchClock : Matcher := bounded fun text => do
  let text ← timeOfDay text
  optionally '.' someDigits text

def months : List (List Char) :=
  ["Jan", "Feb", "Mar", "Apr", "May", "Jun", "Jul", "Aug", "Sep", "Oct", "Nov", "Dec"].map
    String.toList

/-- The abbreviation of a month. -/
def month : Matcher := oneOf (months.map word)

def skipSpaces : Matcher := fun text => some (text.dropWhile fun char => char = ' ')

def matchSyslog : Matcher := fun text => do
  let text ← month text
  let text ← lit ' ' text
  let text ← skipSpaces text
  let text ← oneTo Char.isDigit 2 text
  let text ← lit ' ' text
  timeOfDay text

def matchTimestamp (previous : Option Char) : Matcher :=
  atTokenStart previous (oneOf [matchIso, matchSyslog, matchClock])

end Timestamps

section Identifiers

/-- Groups of hexadecimal digits, joined by hyphens. -/
def hexGroups : List Nat → Matcher
  | [], text => some text
  | [count], text => exactly isHexDigit count text
  | count :: counts, text => do
      let text ← exactly isHexDigit count text
      let text ← lit '-' text
      hexGroups counts text

def matchUuid (previous : Option Char) : Matcher :=
  atTokenStart previous (bounded (hexGroups [8, 4, 4, 4, 12]))

/-- Octets of one to three digits, joined by dots. -/
def octets : Nat → Matcher
  | 0, text => some text
  | 1, text => oneTo Char.isDigit 3 text
  | count + 2, text => do
      let text ← oneTo Char.isDigit 3 text
      let text ← lit '.' text
      octets (count + 1) text

def matchIpv4 : Matcher := bounded fun text => do
  let text ← octets 4 text
  optionally ':' someDigits text

def isIpv6Char (char : Char) : Bool := isHexDigit char || char = ':'

/-- Whether a colon follows a colon. -/
def doubleColon : List Char → Bool
  | ':' :: ':' :: _ => true
  | _ :: text => doubleColon text
  | [] => false

/-- A run of hexadecimal digits and colons that is compressed or has enough colons. -/
def ipv6Run : Matcher := fun text =>
  let run := text.takeWhile isIpv6Char
  if run ≠ [] ∧ (doubleColon run = true ∨ 4 ≤ run.count ':') then some (text.dropWhile isIpv6Char)
  else none

def matchIpv6 : Matcher := bounded ipv6Run

def matchIp (previous : Option Char) : Matcher :=
  atTokenStart previous (oneOf [matchIpv4, matchIpv6])

/-- `0x` and hexadecimal digits. -/
def hexLiteral : Matcher := fun text => do
  let text ← lit '0' text
  let text ← oneOf [lit 'x', lit 'X'] text
  oneOrMore isHexDigit text

/-- Six hexadecimal digits or more. -/
def bareHex : Matcher := fun text =>
  if 6 ≤ (text.takeWhile isHexDigit).length then some (text.dropWhile isHexDigit) else none

def matchHex (previous : Option Char) : Matcher :=
  atTokenStart previous (oneOf [bounded hexLiteral, bounded bareHex])

end Identifiers

section Numbers

/-- `digits[.digits]`. -/
def matchDecimal : Matcher := fun text => do
  let text ← someDigits text
  attempt (fun text => do
    let text ← lit '.' text
    someDigits text) text

/-- The unit of a duration, one of two letters first. -/
def matchUnit : Matcher :=
  oneOf ([['n', 's'], ['m', 's'], ['u', 's'], ['\u00b5', 's'], ['s'], ['m'], ['h']].map word)

/-- A number with its unit. -/
def durationSegment : Matcher := fun text => do
  let text ← matchDecimal text
  matchUnit text

/-- The matchers of the table consume something, which ends the scan; first the parts. Decimals may
be missing. -/
theorem trims_decimals : Trims (attempt fun text => do
    let text ← lit '.' text
    someDigits text) :=
  (consumes_lit.bind consumes_oneOrMore.trims).trims.attempt

/-- A decimal number has a digit. -/
theorem consumes_matchDecimal : Consumes matchDecimal :=
  consumes_oneOrMore.bind trims_decimals

/-- A unit has a letter. -/
theorem consumes_matchUnit : Consumes matchUnit := by
  apply Consumes.oneOf
  simp only [List.forall_mem_map]
  exact fun letters listed => consumes_word (by rintro rfl; simp at listed)

/-- So a number with its unit consumes both. -/
theorem consumes_durationSegment : Consumes durationSegment :=
  consumes_matchDecimal.bind consumes_matchUnit.trims

/-- Segments, at least one. -/
def durationSegments : Matcher := fun text =>
  let (segments, rest) := repeated durationSegment consumes_durationSegment text
  if 1 ≤ segments then some rest else none

def matchDuration (previous : Option Char) : Matcher :=
  atTokenStart previous (bounded durationSegments)

def matchNum (previous : Option Char) : Matcher := atTokenStart previous (bounded matchDecimal)

end Numbers

section Paths

def isPathSegmentChar (char : Char) : Bool :=
  char.isAlphanum || char = '/' || char = '.' || char = '-' || char = '_'

def isPathChar (char : Char) : Bool :=
  char.isAlphanum || char = '\\' || char = '/' || char = '.' || char = '-' || char = '_'

/-- A drive, its colon and what follows from the backslash on. -/
def windowsPath : Matcher := fun text => do
  let text ← exactly Char.isAlpha 1 text
  let text ← lit ':' text
  let text ← lit '\\' text
  some (text.dropWhile isPathChar)

/-- A colon and a number, if they are there. -/
def lineNumber (next : Matcher) : Matcher := attempt fun text => do
  let text ← lit ':' text
  let text ← someDigits text
  next text

/-- A run with a slash, and its line and column. -/
def unixPath : Matcher := fun text =>
  let run := text.takeWhile isPathSegmentChar
  if '/' ∈ run then lineNumber (lineNumber some) (text.dropWhile isPathSegmentChar) else none

/-- A path may start where neither a word nor a slash nor a dot is before. -/
def pathStart (previous : Option Char) : Bool :=
  previous.all fun char => !isWord char && char ≠ '/' && char ≠ '.'

def matchPath (previous : Option Char) : Matcher :=
  oneOf [windowsPath, fun text => if pathStart previous then unixPath text else none]

end Paths

/-- The matchers with their placeholders, in the order in which they are tried. -/
def matchers : List (String × (Option Char → Matcher)) :=
  [("<TS>", matchTimestamp), ("<UUID>", matchUuid), ("<IP>", matchIp), ("<DUR>", matchDuration),
    ("<HEX>", matchHex), ("<PATH>", matchPath), ("<NUM>", matchNum)]

def matchAny (previous : Option Char) (text : List Char) : Option (String × List Char) :=
  matchers.findSome? fun (token, matcher) => (matcher previous text).map fun rest => (token, rest)

section Consumption

/-- A check of the character before takes nothing off. -/
theorem consumes_atTokenStart {matcher : Matcher} (consumes : Consumes matcher)
    (previous : Option Char) : Consumes (atTokenStart previous matcher) := by
  intro text rest matched
  rw [LogTemplate.atTokenStart, Option.ite_none_right_eq_some] at matched
  exact consumes text rest matched.2

/-- A time of day starts with two digits. -/
theorem consumes_timeOfDay : Consumes timeOfDay :=
  (consumes_exactly 1).bind (consumes_lit.trims.bind ((consumes_exactly 1).trims.bind
    (consumes_lit.trims.bind (consumes_exactly 1).trims)))

/-- An offset is a sign and digits. -/
theorem trims_zoneOffset : Trims zoneOffset :=
  (trims_exactly 2).bind (trims_some.optionally.bind (trims_exactly 2))

/-- The zone may be missing. -/
theorem trims_zone : Trims zone := by
  intro text rest matched
  rw [zone.eq_def] at matched
  split at matched
  · exact Option.some.inj matched ▸ List.suffix_cons _ _
  · exact (trims_zoneOffset _ _ matched).trans (List.suffix_cons _ _)
  · exact (trims_zoneOffset _ _ matched).trans (List.suffix_cons _ _)
  · exact trims_some _ _ matched

/-- So may the fraction of a second. -/
theorem trims_fraction : Trims (optionally '.' someDigits) :=
  consumes_oneOrMore.trims.optionally

/-- Between date and time stands one character. -/
theorem consumes_dateMark : Consumes dateMark := by
  apply Consumes.oneOf
  simp only [List.forall_mem_cons, List.not_mem_nil, false_implies, implies_true, and_true]
  exact ⟨consumes_lit, consumes_lit⟩

/-- A date starts with four digits. -/
theorem consumes_matchIso : Consumes matchIso :=
  (consumes_exactly 3).bind (consumes_lit.trims.bind ((trims_exactly 2).bind
    (consumes_lit.trims.bind ((trims_exactly 2).bind (consumes_dateMark.trims.bind
      (consumes_timeOfDay.trims.bind (trims_fraction.bind trims_zone)))))))

/-- The name of a month has three letters. -/
theorem consumes_month : Consumes month := by
  apply Consumes.oneOf
  simp only [List.forall_mem_map]
  exact fun letters listed => consumes_word (by rintro rfl; revert listed; decide)

/-- So a syslog stamp starts with them. -/
theorem consumes_matchSyslog : Consumes matchSyslog :=
  consumes_month.bind (consumes_lit.trims.bind (trims_dropWhile.bind
    ((consumes_oneTo 2).trims.bind (consumes_lit.trims.bind consumes_timeOfDay.trims))))

/-- A bare clock time starts with digits. -/
theorem consumes_matchClock : Consumes matchClock :=
  (consumes_timeOfDay.bind trims_fraction).endingBefore

/-- Each format of a stamp consumes something. -/
theorem consumes_matchTimestamp (previous : Option Char) : Consumes (matchTimestamp previous) := by
  apply consumes_atTokenStart
  apply Consumes.oneOf
  simp only [List.forall_mem_cons, List.not_mem_nil, false_implies, implies_true, and_true]
  exact ⟨consumes_matchIso, consumes_matchSyslog, consumes_matchClock⟩

/-- Each group of a UUID is a hyphen and its digits. -/
theorem trims_hexGroups (counts : List Nat) : Trims (hexGroups counts) := by
  induction counts with
  | nil => exact trims_some
  | cons count counts ih =>
    cases counts with
    | nil => exact trims_exactly count
    | cons next counts => exact (trims_exactly count).bind (consumes_lit.trims.bind ih)

/-- The first group of a UUID is not empty. -/
theorem consumes_matchUuid (previous : Option Char) : Consumes (matchUuid previous) := by
  apply consumes_atTokenStart
  apply Consumes.endingBefore
  exact (consumes_exactly 7).bind (consumes_lit.trims.bind (trims_hexGroups _))

/-- The octets after the first each follow a dot. -/
theorem trims_octets (count : Nat) : Trims (octets count) := by
  induction count with
  | zero => exact trims_some
  | succ count ih =>
    cases count with
    | zero => exact (consumes_oneTo 3).trims
    | succ count => exact (consumes_oneTo 3).trims.bind (consumes_lit.trims.bind ih)

/-- The first octet has a digit. -/
theorem consumes_matchIpv4 : Consumes matchIpv4 := by
  apply Consumes.endingBefore
  have octets : Consumes (octets 4) :=
    (consumes_oneTo 3).bind (consumes_lit.trims.bind (trims_octets 3))
  exact octets.bind consumes_oneOrMore.trims.optionally

/-- An address with colons has one. -/
theorem consumes_ipv6Run : Consumes ipv6Run := by
  intro text rest matched
  rw [ipv6Run, Option.ite_none_right_eq_some, Option.some.injEq] at matched
  exact ⟨_, matched.1.1, by rw [← matched.2, List.takeWhile_append_dropWhile]⟩

/-- So an address of either kind consumes something. -/
theorem consumes_matchIp (previous : Option Char) : Consumes (matchIp previous) := by
  apply consumes_atTokenStart
  apply Consumes.oneOf
  simp only [List.forall_mem_cons, List.not_mem_nil, false_implies, implies_true, and_true]
  exact ⟨consumes_matchIpv4, consumes_ipv6Run.endingBefore⟩

/-- A duration has one segment at least. -/
theorem consumes_durationSegments : Consumes durationSegments := by
  intro text rest matched
  rw [durationSegments, Option.ite_none_right_eq_some, Option.some.injEq] at matched
  obtain ⟨consumed, same, nonempty⟩ := repeated_suffix consumes_durationSegment text
  exact ⟨consumed, nonempty (Nat.one_le_iff_ne_zero.mp matched.1), by rw [← matched.2, ← same]⟩

/-- So it consumes that one. -/
theorem consumes_matchDuration (previous : Option Char) : Consumes (matchDuration previous) :=
  consumes_atTokenStart consumes_durationSegments.endingBefore previous

/-- A hexadecimal literal starts with its prefix. -/
theorem consumes_hexLiteral : Consumes hexLiteral := by
  have mark : Consumes (oneOf [lit 'x', lit 'X']) := by
    apply Consumes.oneOf
    simp only [List.forall_mem_cons, List.not_mem_nil, false_implies, implies_true, and_true]
    exact ⟨consumes_lit, consumes_lit⟩
  exact consumes_lit.bind (mark.trims.bind consumes_oneOrMore.trims)

/-- A bare hexadecimal word has six digits at least. -/
theorem consumes_bareHex : Consumes bareHex := by
  intro text rest matched
  rw [bareHex, Option.ite_none_right_eq_some, Option.some.injEq] at matched
  refine ⟨_, ?_, by rw [← matched.2, List.takeWhile_append_dropWhile]⟩
  intro empty
  simp [empty] at matched

/-- So either form consumes something. -/
theorem consumes_matchHex (previous : Option Char) : Consumes (matchHex previous) := by
  apply consumes_atTokenStart
  apply Consumes.oneOf
  simp only [List.forall_mem_cons, List.not_mem_nil, false_implies, implies_true, and_true]
  exact ⟨consumes_hexLiteral.endingBefore, consumes_bareHex.endingBefore⟩

/-- A line number behind a path is digits, or is not there. -/
theorem trims_lineNumber {next : Matcher} (trims : Trims next) : Trims (lineNumber next) :=
  (consumes_lit.trims.bind (consumes_oneOrMore.trims.bind trims)).attempt

/-- A path of slashes starts with one, or with a dot. -/
theorem consumes_unixPath : Consumes unixPath := by
  intro text rest matched
  rw [unixPath, Option.ite_none_right_eq_some] at matched
  obtain ⟨more, same⟩ := trims_lineNumber (trims_lineNumber trims_some) _ _ matched.2
  refine ⟨text.takeWhile isPathSegmentChar ++ more, ?_, ?_⟩
  · intro empty
    rw [List.append_eq_nil_iff] at empty
    simp [empty.1] at matched
  · rw [List.append_assoc, same, List.takeWhile_append_dropWhile]

/-- A path with a drive starts with its letter. -/
theorem consumes_windowsPath : Consumes windowsPath :=
  (consumes_exactly 0).bind (consumes_lit.trims.bind (consumes_lit.trims.bind trims_dropWhile))

/-- So either form consumes something. -/
theorem consumes_matchPath (previous : Option Char) : Consumes (matchPath previous) := by
  apply Consumes.oneOf
  simp only [List.forall_mem_cons, List.not_mem_nil, false_implies, implies_true, and_true]
  refine ⟨consumes_windowsPath, fun text rest matched => ?_⟩
  rw [Option.ite_none_right_eq_some] at matched
  exact consumes_unixPath text rest matched.2

/-- A number has a digit. -/
theorem consumes_matchNum (previous : Option Char) : Consumes (matchNum previous) :=
  consumes_atTokenStart consumes_matchDecimal.endingBefore previous

/-- Every matcher consumes a character. -/
theorem consumes_matchers (previous : Option Char) :
    ∀ entry ∈ matchers, Consumes (entry.2 previous) := by
  simp only [matchers, List.forall_mem_cons, List.not_mem_nil, false_implies, implies_true,
    and_true]
  exact ⟨consumes_matchTimestamp previous, consumes_matchUuid previous, consumes_matchIp previous,
    consumes_matchDuration previous, consumes_matchHex previous, consumes_matchPath previous,
    consumes_matchNum previous⟩

/-- A token of the table takes off a prefix that is not empty. -/
theorem consumes_matchAny {previous : Option Char} {text rest : List Char} {token : String}
    (matched : matchAny previous text = some (token, rest)) :
    ∃ consumed, consumed ≠ [] ∧ text = consumed ++ rest := by
  obtain ⟨entry, listed, found⟩ := List.exists_of_findSome?_eq_some matched
  obtain ⟨rest', found, same⟩ := Option.map_eq_some_iff.mp found
  cases same
  exact consumes_matchers previous entry listed text rest found

end Consumption

section Scan

/-- The character before what remains of a text. -/
def lastRead (text rest : List Char) : Option Char :=
  (text.take (text.length - rest.length)).getLast?

/-- The scan from a position. -/
def scan (previous : Option Char) : List Char → List Char
  | [] => []
  | head :: tail =>
      match _matched : matchAny previous (head :: tail) with
      | some (token, rest) => token.toList ++ scan (lastRead (head :: tail) rest) rest
      | none => head :: scan (some head) tail
termination_by text => text.length
decreasing_by
  · obtain ⟨consumed, nonempty, same⟩ := consumes_matchAny _matched
    have := List.length_pos_iff.mpr nonempty
    rw [same, List.length_append]
    omega
  · exact Nat.lt_succ_self _

def normalizeTemplateV1 (message : String) : String := String.ofList (scan none message.toList)

end Scan

end Egregore.LogTemplate
