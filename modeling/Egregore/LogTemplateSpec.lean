import Egregore.Base.Text
import Egregore.LogTemplate

/-!
# Numbers in log templates

Two log lines that differ in one standalone number have the same template exactly when both numbers
are shorter than six digits, or both are not: from six digits on a number is taken for a
hexadecimal run. Up to the number, the scans of both lines agree, since but for the timestamps no
matcher sees past a space. `normalizeTemplateV1_number` is over the whole table of matchers, any
two numbers and any plain text around them.
-/

namespace Egregore.LogTemplate

open Base Base.Matcher

section Spaces

/-- A check of what comes before the token does not move its end. -/
theorem stopsAt_atTokenStart {matcher : Matcher} (stops : StopsAt ' ' matcher)
    (previous : Option Char) : StopsAt ' ' (atTokenStart previous matcher) := by
  intro before after after'
  simp only [atTokenStart]
  split
  · exact stops before after after'
  · exact .none

/-- Digits end at a blank. No matcher of the table reads past one, nor do its parts. -/
theorem stopsAt_someDigits : StopsAt ' ' someDigits := stopsAt_oneOrMore rfl

/-- The groups of a UUID end at a blank. -/
theorem stopsAt_hexGroups (counts : List Nat) : StopsAt ' ' (hexGroups counts) := by
  induction counts with
  | nil => exact stopsAt_some
  | cons count counts ih =>
    cases counts with
    | nil => exact stopsAt_exactly rfl count
    | cons next counts => exact (stopsAt_exactly rfl count).bind ((stopsAt_lit (by decide)).bind ih)

/-- The octets of an address do. -/
theorem stopsAt_octets (count : Nat) : StopsAt ' ' (octets count) := by
  induction count with
  | zero => exact stopsAt_some
  | succ count ih =>
    cases count with
    | zero => exact stopsAt_oneTo rfl 3
    | succ count => exact (stopsAt_oneTo rfl 3).bind ((stopsAt_lit (by decide)).bind ih)

/-- So do the groups of an address with colons. -/
theorem stopsAt_ipv6Run : StopsAt ' ' ipv6Run := by
  intro before after after'
  simp only [ipv6Run, takeWhile_append_mark (show isIpv6Char ' ' = false from rfl),
    dropWhile_append_mark (show isIpv6Char ' ' = false from rfl)]
  split
  · exact .some _
  · exact .none

/-- So an address of either kind ends there. -/
theorem stopsAt_matchIp (previous : Option Char) : StopsAt ' ' (matchIp previous) := by
  apply stopsAt_atTokenStart
  apply StopsAt.oneOf
  simp only [List.forall_mem_cons, List.not_mem_nil, false_implies, implies_true, and_true]
  have octets : StopsAt ' ' fun text => (octets 4 text).bind (optionally ':' someDigits) :=
    (stopsAt_octets 4).bind (stopsAt_someDigits.optionally (by decide))
  exact ⟨octets.endingBefore, stopsAt_ipv6Run.endingBefore⟩

/-- A decimal number does. -/
theorem stopsAt_matchDecimal : StopsAt ' ' matchDecimal :=
  stopsAt_someDigits.bind ((stopsAt_lit (by decide)).bind stopsAt_someDigits).attempt

/-- A unit does. -/
theorem stopsAt_matchUnit : StopsAt ' ' matchUnit := by
  apply StopsAt.oneOf
  simp only [List.forall_mem_map]
  intro letters listed
  apply stopsAt_word
  revert letters
  decide

/-- A duration does, one number with its unit after the other. -/
theorem stopsAt_durationSegments : StopsAt ' ' durationSegments := by
  intro before after after'
  obtain ⟨count, rest, same, same'⟩ := (stopsAt_matchDecimal.bind stopsAt_matchUnit).repeated
    consumes_durationSegment before after after'
  have same : repeated durationSegment consumes_durationSegment (before ++ ' ' :: after) =
    (count, rest ++ ' ' :: after) := same
  have same' : repeated durationSegment consumes_durationSegment (before ++ ' ' :: after') =
    (count, rest ++ ' ' :: after') := same'
  simp only [durationSegments, same, same']
  split
  · exact .some rest
  · exact .none

/-- A hexadecimal word does. -/
theorem stopsAt_matchHex (previous : Option Char) : StopsAt ' ' (matchHex previous) := by
  apply stopsAt_atTokenStart
  apply StopsAt.oneOf
  simp only [List.forall_mem_cons, List.not_mem_nil, false_implies, implies_true, and_true]
  constructor
  · apply StopsAt.endingBefore
    have mark : StopsAt ' ' (oneOf [lit 'x', lit 'X']) := by
      apply StopsAt.oneOf
      simp only [List.forall_mem_cons, List.not_mem_nil, false_implies, implies_true, and_true]
      exact ⟨stopsAt_lit (by decide), stopsAt_lit (by decide)⟩
    exact (stopsAt_lit (by decide)).bind (mark.bind (stopsAt_oneOrMore rfl))
  · apply StopsAt.endingBefore
    intro before after after'
    simp only [bareHex, takeWhile_append_mark (show isHexDigit ' ' = false from rfl),
      dropWhile_append_mark (show isHexDigit ' ' = false from rfl)]
    split
    · exact .some _
    · exact .none

/-- A line number does not add a blank to what follows a path. -/
theorem stopsAt_lineNumber {next : Matcher} (stops : StopsAt ' ' next) :
    StopsAt ' ' (lineNumber next) :=
  ((stopsAt_lit (by decide)).bind (stopsAt_someDigits.bind stops)).attempt

/-- A path of slashes ends at a blank. -/
theorem stopsAt_unixPath : StopsAt ' ' unixPath := by
  intro before after after'
  simp only [unixPath, takeWhile_append_mark (show isPathSegmentChar ' ' = false from rfl),
    dropWhile_append_mark (show isPathSegmentChar ' ' = false from rfl)]
  split
  · exact stopsAt_lineNumber (stopsAt_lineNumber stopsAt_some) _ after after'
  · exact .none

/-- So does a path of either kind. -/
theorem stopsAt_matchPath (previous : Option Char) : StopsAt ' ' (matchPath previous) := by
  apply StopsAt.oneOf
  simp only [List.forall_mem_cons, List.not_mem_nil, false_implies, implies_true, and_true]
  constructor
  · exact (stopsAt_exactly rfl 1).bind ((stopsAt_lit (by decide)).bind
      ((stopsAt_lit (by decide)).bind (stopsAt_dropWhile rfl)))
  · intro before after after'
    split
    · exact stopsAt_unixPath before after after'
    · exact .none

/-- But for the timestamps, the matchers do not see past a space. -/
theorem stopsAt_matchers (previous : Option Char) :
    ∀ entry ∈ matchers.tail, StopsAt ' ' (entry.2 previous) := by
  simp only [matchers, List.tail_cons, List.forall_mem_cons, List.not_mem_nil, false_implies,
    implies_true, and_true]
  exact ⟨stopsAt_atTokenStart (stopsAt_hexGroups _).endingBefore previous,
    stopsAt_matchIp previous,
    stopsAt_atTokenStart stopsAt_durationSegments.endingBefore previous,
    stopsAt_matchHex previous, stopsAt_matchPath previous,
    stopsAt_atTokenStart stopsAt_matchDecimal.endingBefore previous⟩

end Spaces

section Timestamps

/-- A text without digits. -/
def Plain (text : List Char) : Prop := ∀ char ∈ text, char.isDigit = false

/-- A text that is empty or starts with a space. -/
def Apart (text : List Char) : Prop := ∀ head ∈ text.head?, head = ' '

instance (text : List Char) : Decidable (Plain text) :=
  inferInstanceAs (Decidable (∀ char ∈ text, char.isDigit = false))

instance (text : List Char) : Decidable (Apart text) :=
  decidable_of_iff (text.head?.all fun head => head = ' ') (by simp [Apart, Option.all_eq_true])

/-- Digits, at least one. -/
structure Digits (number : List Char) : Prop where
  nonempty : number ≠ []
  digits : ∀ char ∈ number, char.isDigit = true

variable {previous : Option Char} {before number suffix : List Char}

/-- No digit comes after a space that comes after a digit. -/
theorem plain_of_digit_space (plain : Plain before) (digits : Digits number) (plain' : Plain suffix)
    {left right : List Char} (split : before ++ ' ' :: (number ++ suffix) = left ++ ' ' :: right)
    {digit : Char} (inside : digit ∈ left) (isDigit : digit.isDigit = true) : Plain right := by
  rcases List.append_eq_append_iff.mp split with ⟨more, rfl, whole⟩ | ⟨more, rfl, -⟩
  · cases more with
    | nil =>
      rw [List.append_nil] at inside
      exact absurd isDigit (by simp [plain digit inside])
    | cons space more =>
      rw [List.cons_append] at whole
      rcases List.append_eq_append_iff.mp (List.cons.inj whole).2 with
        ⟨later, -, rfl⟩ | ⟨later, rfl, same⟩
      · exact fun char member => plain' char (by simp [member])
      · cases later with
        | nil =>
          rw [List.nil_append] at same
          exact fun char member => plain' char (same ▸ List.mem_cons_of_mem _ member)
        | cons space' later =>
          obtain ⟨rfl, -⟩ := List.cons.inj same
          exact absurd (digits.digits ' ' (by simp)) (by decide)
  · exact absurd isDigit (by simp [plain digit (by simp [inside])])

/-- A syslog stamp has a digit, a space and a digit after it. -/
theorem exists_digits_of_matchSyslog {text rest : List Char}
    (matched : matchSyslog text = some rest) : ∃ left right, text = left ++ ' ' :: right ∧
      (∃ digit ∈ left, digit.isDigit = true) ∧ ∃ digit ∈ right, digit.isDigit = true := by
  simp only [matchSyslog, timeOfDay, Option.bind_eq_bind, Option.bind_eq_some_iff] at matched
  obtain ⟨afterMonth, inMonth, afterSpace, space, day, skipped, afterDay, inDay, time, space',
    rest', hour, -⟩ := matched
  obtain ⟨start, -, rfl⟩ := consumes_month _ _ inMonth
  obtain ⟨start', -, rfl⟩ := consumes_lit _ _ space
  obtain ⟨start'', rfl⟩ := trims_dropWhile _ _ skipped
  obtain ⟨digit, more, rfl, isDigit⟩ := exists_head_of_oneTo inDay
  obtain rfl := lit_eq_some_iff.mp space'
  obtain ⟨digit', tail, rfl, isDigit'⟩ := exists_head_of_exactly hour
  refine ⟨start ++ (start' ++ (start'' ++ digit :: more)), digit' :: tail, by simp,
    ⟨digit, by simp, isDigit⟩, digit', List.mem_cons_self .., isDigit'⟩

/-- Between plain words a number is no syslog stamp: these start with a month. -/
theorem matchSyslog_eq_none (plain : Plain before) (digits : Digits number)
    (plain' : Plain suffix) : matchSyslog (before ++ ' ' :: (number ++ suffix)) = none := by
  cases matched : matchSyslog (before ++ ' ' :: (number ++ suffix)) with
  | none => rfl
  | some rest =>
    obtain ⟨left, right, split, ⟨digit, inside, isDigit⟩, later, inside', isDigit'⟩ :=
      exists_digits_of_matchSyslog matched
    have none := plain_of_digit_space plain digits plain' split inside isDigit later inside'
    rw [isDigit'] at none
    cases none

/-- Nor is it part of any other stamp. -/
theorem matchTimestamp_eq_none (plain : Plain before) (digits : Digits number)
    (plain' : Plain suffix) :
    matchTimestamp previous (before ++ ' ' :: (number ++ suffix)) = none := by
  have noDigit : ∀ head ∈ (before ++ ' ' :: (number ++ suffix)).head?, head.isDigit = false := by
    cases before with
    | nil => simp
    | cons head rest =>
      simp only [List.cons_append, List.head?_cons, Option.mem_def, Option.some.injEq,
        forall_eq']
      exact plain head (List.mem_cons_self ..)
  have iso : matchIso (before ++ ' ' :: (number ++ suffix)) = none := by
    rw [matchIso, exactDigits, exactly_eq_none noDigit]
    rfl
  have clock : matchClock (before ++ ' ' :: (number ++ suffix)) = none := by
    simp only [matchClock, bounded, endingBefore, timeOfDay, exactDigits, exactly_eq_none noDigit]
    rfl
  rw [matchTimestamp, atTokenStart]
  split
  · simp only [oneOf, List.findSome?_cons, iso, clock, matchSyslog_eq_none plain digits plain',
      List.findSome?_nil]
  · rfl

end Timestamps

section Before

variable {previous : Option Char} {before number number' suffix : List Char}

/-- What the first match of some matchers is, with the text after a space left open. -/
inductive SameMatch (after after' : List Char) :
    Option (String × List Char) → Option (String × List Char) → Prop
  | none : SameMatch after after' none none
  | some (token : String) (rest : List Char) : SameMatch after after'
      (some (token, rest ++ ' ' :: after)) (some (token, rest ++ ' ' :: after'))

/-- The first matcher of a table that matches up to the blank is the same for both texts. -/
theorem sameMatch_findSome? {entries : List (String × (Option Char → Matcher))}
    (stops : ∀ entry ∈ entries, StopsAt ' ' (entry.2 previous)) (before after after' : List Char) :
    SameMatch after after'
      (entries.findSome? fun (token, matcher) =>
        (matcher previous (before ++ ' ' :: after)).map fun rest => (token, rest))
      (entries.findSome? fun (token, matcher) =>
        (matcher previous (before ++ ' ' :: after')).map fun rest => (token, rest)) := by
  induction entries with
  | nil => exact .none
  | cons entry others ih =>
    obtain ⟨own, rest⟩ := List.forall_mem_cons.mp stops
    generalize found : entry.2 previous (before ++ ' ' :: after) = result
    generalize found' : entry.2 previous (before ++ ' ' :: after') = result'
    have alike := own before after after'
    rw [found, found'] at alike
    simp only [List.findSome?_cons, found, found']
    cases alike with
    | none => exact ih rest
    | some rest => exact .some entry.1 rest

/-- Before the space, the number and what follows it do not change the match. -/
theorem sameMatch_matchAny (plain : Plain before) (digits : Digits number)
    (digits' : Digits number') (plain' : Plain suffix) :
    SameMatch (number ++ suffix) (number' ++ suffix)
      (matchAny previous (before ++ ' ' :: (number ++ suffix)))
      (matchAny previous (before ++ ' ' :: (number' ++ suffix))) := by
  have same := sameMatch_findSome? (stopsAt_matchers previous) before (number ++ suffix)
    (number' ++ suffix)
  simpa only [matchAny, matchers, List.tail_cons, List.findSome?_cons,
    matchTimestamp_eq_none plain digits plain', matchTimestamp_eq_none plain digits' plain',
    Option.map_none] using same

/-- A character that starts no token is kept. -/
theorem scan_cons_of_none {head : Char} {tail : List Char}
    (unmatched : matchAny previous (head :: tail) = none) :
    scan previous (head :: tail) = head :: scan (some head) tail := by
  rw [scan]
  split
  · next matched =>
    rw [unmatched] at matched
    cases matched
  · rfl

/-- A token is replaced, and the scan goes on after it. -/
theorem scan_of_some {text rest : List Char} {token : String}
    (matched : matchAny previous text = some (token, rest)) :
    scan previous text = token.toList ++ scan (lastRead text rest) rest := by
  cases text with
  | nil =>
    obtain ⟨consumed, nonempty, same⟩ := consumes_matchAny matched
    exact absurd (List.append_eq_nil_iff.mp same.symm).1 nonempty
  | cons head tail =>
    rw [scan]
    split
    · next found =>
      rw [found, Option.some.injEq] at matched
      obtain ⟨rfl, rfl⟩ := Prod.mk.inj matched
      rfl
    · next unmatched =>
      rw [unmatched] at matched
      cases matched

/-- The character before the rest is the last one of the token. -/
theorem lastRead_append (consumed rest : List Char) :
    lastRead (consumed ++ rest) rest = consumed.getLast? := by
  simp [lastRead]

/-- The scans of the text before the space agree. -/
theorem exists_scan_before_space (plain : Plain before) (digits : Digits number)
    (digits' : Digits number') (plain' : Plain suffix) : ∃ scanned,
      scan previous (before ++ ' ' :: (number ++ suffix)) =
          scanned ++ scan (some ' ') (number ++ suffix) ∧
        scan previous (before ++ ' ' :: (number' ++ suffix)) =
          scanned ++ scan (some ' ') (number' ++ suffix) := by
  induction length : before.length using Nat.strong_induction_on generalizing before previous with
  | _ length ih =>
    subst length
    generalize found : matchAny previous (before ++ ' ' :: (number ++ suffix)) = result
    generalize found' : matchAny previous (before ++ ' ' :: (number' ++ suffix)) = result'
    have same : SameMatch (number ++ suffix) (number' ++ suffix)
        (matchAny previous (before ++ ' ' :: (number ++ suffix)))
        (matchAny previous (before ++ ' ' :: (number' ++ suffix))) :=
      sameMatch_matchAny plain digits digits' plain'
    rw [found, found'] at same
    cases same with
    | none =>
      cases before with
      | nil => exact ⟨[' '], scan_cons_of_none found, scan_cons_of_none found'⟩
      | cons head rest =>
        rw [List.cons_append] at found found'
        obtain ⟨scanned, same, same'⟩ := ih rest.length (Nat.lt_succ_self _)
          (fun char member => plain char (List.mem_cons_of_mem _ member)) rfl
        refine ⟨head :: scanned, ?_, ?_⟩
        · rw [List.cons_append, scan_cons_of_none found, same, List.cons_append]
        · rw [List.cons_append, scan_cons_of_none found', same', List.cons_append]
    | some token rest =>
      obtain ⟨consumed, nonempty, split⟩ := consumes_matchAny found
      rw [← List.append_assoc, List.append_cancel_right_eq] at split
      subst split
      have shorter : rest.length < (consumed ++ rest).length := by
        have := List.length_pos_iff.mpr nonempty
        rw [List.length_append]
        omega
      obtain ⟨scanned, same, same'⟩ := ih rest.length shorter
        (fun char member => plain char (List.mem_append_right _ member)) rfl
      refine ⟨token.toList ++ scanned, ?_, ?_⟩
      · rw [scan_of_some found, List.append_assoc, lastRead_append, same, List.append_assoc]
      · rw [scan_of_some found', List.append_assoc, lastRead_append, same', List.append_assoc]

end Before

section Number

/-- No digit is a letter. -/
theorem not_isAlpha_of_isDigit {char : Char} (digit : char.isDigit = true) :
    char.isAlpha = false := by
  simp only [Char.isDigit, Bool.and_eq_true, decide_eq_true_eq, UInt32.le_iff_toNat_le] at digit
  have nine : char.toNat ≤ 57 := digit.2
  rw [isAlpha_eq_false, ← Bool.not_eq_true, ← Bool.not_eq_true, isUpper_iff, isLower_iff]
  omega

variable {number text rest suffix : List Char} {kind : Char → Bool} {target : Char}

/-- Some digits and then the text after the number. -/
def DigitTail (suffix text : List Char) : Prop :=
  ∃ digits : List Char, (∀ char ∈ digits, char.isDigit = true) ∧ text = digits ++ suffix

/-- What is left of the digits after a fixed number of characters is digits again. -/
theorem digitTail_exactly (apart : Apart suffix) (outside : kind ' ' = false) {count : Nat}
    (digits : DigitTail suffix text) (matched : exactly kind count text = some rest) :
    DigitTail suffix rest := by
  induction count generalizing text with
  | zero =>
    rw [exactly, Option.some.injEq] at matched
    exact matched ▸ digits
  | succ count ih =>
    obtain ⟨number, isDigit, rfl⟩ := digits
    cases number with
    | nil =>
      obtain ⟨head, tail, rfl, isKind⟩ := exists_head_of_exactly matched
      rw [apart head (by simp), outside] at isKind
      cases isKind
    | cons head tail =>
      rw [List.cons_append, exactly, Option.ite_none_right_eq_some] at matched
      exact ih ⟨tail, fun char member => isDigit char (List.mem_cons_of_mem _ member), rfl⟩
        matched.2

/-- So it is after as many digits as there are, up to a bound. -/
theorem digitTail_upTo (apart : Apart suffix) (count : Nat) (digits : DigitTail suffix text) :
    DigitTail suffix (upTo Char.isDigit count text) := by
  induction count generalizing text with
  | zero => exact digits
  | succ count ih =>
    obtain ⟨number, isDigit, rfl⟩ := digits
    cases number with
    | nil =>
      refine ⟨[], by simp, ?_⟩
      cases suffix with
      | nil => rfl
      | cons head tail =>
        rw [apart head (by simp)]
        rfl
    | cons head tail =>
      rw [List.cons_append, upTo, if_pos (isDigit head (List.mem_cons_self ..))]
      exact ih ⟨tail, fun char member => isDigit char (List.mem_cons_of_mem _ member), rfl⟩

/-- So it is after at least one of them. -/
theorem digitTail_oneTo (apart : Apart suffix) {count : Nat} (digits : DigitTail suffix text)
    (matched : oneTo Char.isDigit count text = some rest) : DigitTail suffix rest := by
  obtain ⟨number, isDigit, rfl⟩ := digits
  cases number with
  | nil =>
    obtain ⟨head, consumed, same, isDigit'⟩ := exists_head_of_oneTo matched
    rw [List.nil_append] at same
    rw [apart head (by simp [same])] at isDigit'
    cases isDigit'
  | cons head tail =>
    rw [List.cons_append, oneTo, Option.ite_none_right_eq_some, Option.some.injEq] at matched
    rw [← matched.2]
    exact digitTail_upTo apart _
      ⟨tail, fun char member => isDigit char (List.mem_cons_of_mem _ member), rfl⟩

/-- No mark but a space follows a digit. -/
theorem lit_digitTail (apart : Apart suffix) (notDigit : target.isDigit = false)
    (notSpace : target ≠ ' ') (digits : DigitTail suffix text) : lit target text = none := by
  rw [Option.eq_none_iff_forall_ne_some]
  intro rest matched
  obtain rfl := lit_eq_some_iff.mp matched
  obtain ⟨number, isDigit, same⟩ := digits
  cases number with
  | nil =>
    rw [List.nil_append] at same
    subst same
    exact notSpace (apart target rfl)
  | cons head tail =>
    obtain ⟨rfl, -⟩ := List.cons.inj same
    rw [isDigit target (List.mem_cons_self ..)] at notDigit
    cases notDigit

variable (apart : Apart suffix) (digits : Digits number)
include apart

/-- The run of a kind of characters that holds the digits ends with the number. -/
theorem takeWhile_number (inside : ∀ char ∈ number, kind char = true) (outside : kind ' ' = false) :
    (number ++ suffix).takeWhile kind = number ∧ (number ++ suffix).dropWhile kind = suffix := by
  induction number with
  | nil =>
    cases suffix with
    | nil => exact ⟨rfl, rfl⟩
    | cons head tail => simp [apart head (by simp), outside]
  | cons head tail ih =>
    obtain ⟨same, same'⟩ := ih fun char member => inside char (List.mem_cons_of_mem _ member)
    simp [inside head (List.mem_cons_self ..), same, same']

omit apart in
/-- The whole number is such a rest. -/
theorem digitTail_number (digits : Digits number) : DigitTail suffix (number ++ suffix) :=
  ⟨number, digits.digits, rfl⟩

omit apart in
/-- Digits hold no colon. -/
theorem not_doubleColon (digits : ∀ char ∈ number, char.isDigit = true) :
    doubleColon number = false ∧ number.count ':' = 0 := by
  induction number with
  | nil => exact ⟨rfl, rfl⟩
  | cons head tail ih =>
    obtain ⟨single, none⟩ := ih fun char member => digits char (List.mem_cons_of_mem _ member)
    have notColon : head ≠ ':' := by
      rintro rfl
      exact absurd (digits ':' (List.mem_cons_self ..)) (by decide)
    refine ⟨?_, by simp [none, notColon]⟩
    rw [doubleColon.eq_def]
    split
    · next same => exact absurd (List.cons.inj same).1 notColon
    · next same => rw [← (List.cons.inj same).2, single]
    · rfl

include digits

omit digits in
/-- What follows the number is no character of a word. -/
theorem boundary_suffix : (suffix.head?.all fun next => !isWord next) = true := by
  rw [Option.all_eq_true]
  intro next first
  rw [apart next first]
  rfl

/-- A bare number is not a time of day: it lacks the colons. -/
theorem timeOfDay_number : timeOfDay (number ++ suffix) = none := by
  rw [Option.eq_none_iff_forall_ne_some]
  intro rest matched
  simp only [timeOfDay, Option.bind_eq_bind, Option.bind_eq_some_iff] at matched
  obtain ⟨hour, inHour, afterColon, colon, -⟩ := matched
  have tail := digitTail_exactly apart rfl (digitTail_number digits) inHour
  rw [lit_digitTail apart rfl (by decide) tail] at colon
  cases colon

/-- It is not a date: it lacks the hyphens. -/
theorem matchIso_number : matchIso (number ++ suffix) = none := by
  rw [Option.eq_none_iff_forall_ne_some]
  intro rest matched
  simp only [matchIso, Option.bind_eq_bind, Option.bind_eq_some_iff] at matched
  obtain ⟨year, inYear, afterHyphen, hyphen, -⟩ := matched
  have tail := digitTail_exactly apart rfl (digitTail_number digits) inYear
  rw [lit_digitTail apart rfl (by decide) tail] at hyphen
  cases hyphen

omit apart in
/-- It names no month. -/
theorem month_number : month (number ++ suffix) = none := by
  rw [Option.eq_none_iff_forall_ne_some]
  intro rest matched
  obtain ⟨matcher, listed, found⟩ := List.exists_of_findSome?_eq_some matched
  obtain ⟨letters, isMonth, rfl⟩ := List.mem_map.mp listed
  have letter : ∀ letters ∈ months, letters.head?.any fun head => !head.isDigit := by decide
  have first := letter letters isMonth
  have same := word_eq_some_iff.mp found
  cases number with
  | nil => exact digits.nonempty rfl
  | cons digit others =>
    cases letters with
    | nil => cases first
    | cons head tail =>
      obtain ⟨rfl, -⟩ := List.cons.inj same
      simp [digits.digits digit (List.mem_cons_self ..)] at first

/-- So it is no stamp of any format. -/
theorem matchTimestamp_number (previous : Option Char) :
    matchTimestamp previous (number ++ suffix) = none := by
  have syslog : matchSyslog (number ++ suffix) = none := by
    rw [matchSyslog, month_number digits]
    rfl
  have clock : matchClock (number ++ suffix) = none := by
    simp only [matchClock, bounded, endingBefore, timeOfDay_number apart digits]
    rfl
  simp only [matchTimestamp, atTokenStart, oneOf, List.findSome?_cons, List.findSome?_nil,
    matchIso_number apart digits, syslog, clock, ite_self]

/-- It is no UUID. -/
theorem matchUuid_number (previous : Option Char) :
    matchUuid previous (number ++ suffix) = none := by
  have groups : hexGroups [8, 4, 4, 4, 12] (number ++ suffix) = none := by
    rw [Option.eq_none_iff_forall_ne_some]
    intro rest matched
    simp only [hexGroups, Option.bind_eq_bind, Option.bind_eq_some_iff] at matched
    obtain ⟨group, inGroup, afterHyphen, hyphen, -⟩ := matched
    have tail := digitTail_exactly apart rfl (digitTail_number digits) inGroup
    rw [lit_digitTail apart rfl (by decide) tail] at hyphen
    cases hyphen
  simp only [matchUuid, atTokenStart, bounded, endingBefore, groups, Option.filter_none, ite_self]

/-- It is no address: it lacks the dots. -/
theorem matchIpv4_number : matchIpv4 (number ++ suffix) = none := by
  have octets : octets 4 (number ++ suffix) = none := by
    rw [Option.eq_none_iff_forall_ne_some]
    intro rest matched
    simp only [octets, Option.bind_eq_bind, Option.bind_eq_some_iff] at matched
    obtain ⟨octet, inOctet, afterDot, dot, -⟩ := matched
    have tail := digitTail_oneTo apart (digitTail_number digits) inOctet
    rw [lit_digitTail apart rfl (by decide) tail] at dot
    cases dot
  simp only [matchIpv4, bounded, endingBefore, octets]
  rfl

/-- Nor is it one with colons. -/
theorem matchIp_number (previous : Option Char) : matchIp previous (number ++ suffix) = none := by
  have hex : ∀ char ∈ number, isIpv6Char char = true := fun char member => by
    simp [isIpv6Char, isHexDigit, digits.digits char member]
  have run : ipv6Run (number ++ suffix) = none := by
    obtain ⟨single, none⟩ := not_doubleColon digits.digits
    simp [ipv6Run, (takeWhile_number apart hex rfl).1, single, none]
  simp only [matchIp, atTokenStart, oneOf, List.findSome?_cons, List.findSome?_nil,
    matchIpv4_number apart digits, matchIpv6, bounded, endingBefore, run, Option.filter_none,
    ite_self]

/-- Reading digits reads the whole number. -/
theorem someDigits_number : someDigits (number ++ suffix) = some suffix := by
  obtain ⟨-, dropped⟩ := takeWhile_number apart digits.digits rfl
  cases number with
  | nil => exact absurd rfl digits.nonempty
  | cons head tail =>
    have first := digits.digits head (List.mem_cons_self ..)
    rw [List.cons_append, List.dropWhile_cons, if_pos first] at dropped
    rw [someDigits, List.cons_append, oneOrMore, if_pos first, dropped]

/-- It is a decimal number without a point. -/
theorem matchDecimal_number : matchDecimal (number ++ suffix) = some suffix := by
  have dot : lit '.' suffix = none := lit_digitTail apart rfl (by decide) ⟨[], by simp, rfl⟩
  simp [matchDecimal, someDigits_number apart digits, attempt, dot]

/-- It is no duration: it lacks a unit. -/
theorem matchDuration_number (previous : Option Char) :
    matchDuration previous (number ++ suffix) = none := by
  have unitless : matchUnit suffix = none := by
    rw [Option.eq_none_iff_forall_ne_some]
    intro rest matched
    obtain ⟨consumed, nonempty, same⟩ := consumes_matchUnit _ _ matched
    obtain ⟨matcher, listed, found⟩ := List.exists_of_findSome?_eq_some matched
    obtain ⟨letters, isUnit, rfl⟩ := List.mem_map.mp listed
    have letter : ∀ letters ∈ [['n', 's'], ['m', 's'], ['u', 's'], ['\u00b5', 's'], ['s'], ['m'],
      ['h']], letters.head?.any fun head => head ≠ ' ' := by decide
    have first := letter letters isUnit
    cases letters with
    | nil => cases first
    | cons head tail =>
      have isSpace := apart head (by simp [word_eq_some_iff.mp found])
      simp [isSpace] at first
  have segment : durationSegment (number ++ suffix) = none := by
    simp [durationSegment, matchDecimal_number apart digits, unitless]
  simp [matchDuration, atTokenStart, bounded, endingBefore, durationSegments,
    repeated_of_none segment]

/-- From six digits on, it is a hexadecimal word. -/
theorem matchHex_number : matchHex (some ' ') (number ++ suffix) =
    if 6 ≤ number.length then some suffix else none := by
  have hex : ∀ char ∈ number, isHexDigit char = true := fun char member => by
    simp [isHexDigit, digits.digits char member]
  have literal : hexLiteral (number ++ suffix) = none := by
    rw [Option.eq_none_iff_forall_ne_some]
    intro rest matched
    simp only [hexLiteral, Option.bind_eq_bind, Option.bind_eq_some_iff] at matched
    obtain ⟨afterZero, zero, afterMark, mark, -⟩ := matched
    have tail : DigitTail suffix afterZero := by
      have same := lit_eq_some_iff.mp zero
      cases number with
      | nil => exact absurd rfl digits.nonempty
      | cons head others =>
        obtain ⟨-, same⟩ := List.cons.inj same
        exact ⟨others, fun char member => digits.digits char (List.mem_cons_of_mem _ member),
          same.symm⟩
    have small : lit 'x' afterZero = none := lit_digitTail apart rfl (by decide) tail
    have capital : lit 'X' afterZero = none := lit_digitTail apart rfl (by decide) tail
    simp only [oneOf, List.findSome?_cons, List.findSome?_nil, small, capital] at mark
    cases mark
  obtain ⟨run, dropped⟩ := takeWhile_number apart hex rfl
  simp only [matchHex, atTokenStart, oneOf, List.findSome?_cons, List.findSome?_nil, bounded,
    endingBefore, literal, Option.filter_none, bareHex, run, dropped]
  rw [if_pos (show tokenStart (some ' ') = true from rfl)]
  by_cases long : 6 ≤ number.length
  · rw [if_pos long, Option.filter_some, if_pos (boundary_suffix apart)]
  · rw [if_neg long, Option.filter_none]

/-- It is no path: it lacks the slashes. -/
theorem matchPath_number (previous : Option Char) :
    matchPath previous (number ++ suffix) = none := by
  have segment : ∀ char ∈ number, isPathSegmentChar char = true := fun char member => by
    simp [isPathSegmentChar, Char.isAlphanum, digits.digits char member]
  have slash : '/' ∉ number := fun member => absurd (digits.digits '/' member) (by decide)
  have unix : unixPath (number ++ suffix) = none := by
    simp [unixPath, (takeWhile_number apart segment rfl).1, slash]
  have windows : windowsPath (number ++ suffix) = none := by
    rw [windowsPath, exactly_eq_none]
    · rfl
    · cases number with
      | nil => exact absurd rfl digits.nonempty
      | cons head others =>
        rintro char ⟨⟩
        exact not_isAlpha_of_isDigit (digits.digits head (List.mem_cons_self ..))
  simp only [matchPath, oneOf, List.findSome?_cons, List.findSome?_nil, unix, windows, ite_self]

/-- And it always is a number. -/
theorem matchNum_number : matchNum (some ' ') (number ++ suffix) = some suffix := by
  simp only [matchNum, atTokenStart, bounded, endingBefore, matchDecimal_number apart digits]
  rw [if_pos (show tokenStart (some ' ') = true from rfl), Option.filter_some,
    if_pos (boundary_suffix apart)]

/-- A standalone number is a hexadecimal run from six digits on. -/
theorem matchAny_number : matchAny (some ' ') (number ++ suffix) =
    some (if 6 ≤ number.length then "<HEX>" else "<NUM>", suffix) := by
  rw [matchAny]
  simp only [matchers, List.findSome?_cons, matchTimestamp_number apart digits,
    matchUuid_number apart digits, matchIp_number apart digits, matchDuration_number apart digits,
    matchHex_number apart digits, matchPath_number apart digits, matchNum_number apart digits,
    Option.map_none, Option.map_some]
  by_cases long : 6 ≤ number.length
  · rw [if_pos long, if_pos long]
    rfl
  · rw [if_neg long, if_neg long]
    rfl

end Number

section Templates

/-- No stamp starts with a blank. -/
theorem matchTimestamp_space (previous : Option Char) (text : List Char) :
    matchTimestamp previous (' ' :: text) = none := by
  have noDigit : ∀ head ∈ (' ' :: text).head?, head.isDigit = false := by
    rintro head ⟨⟩
    rfl
  have iso : matchIso (' ' :: text) = none := by
    rw [matchIso, exactDigits, exactly_eq_none noDigit]
    rfl
  have clock : matchClock (' ' :: text) = none := by
    simp only [matchClock, bounded, endingBefore, timeOfDay, exactDigits, exactly_eq_none noDigit]
    rfl
  have syslog : matchSyslog (' ' :: text) = none := by
    have noMonth : month (' ' :: text) = none := rfl
    rw [matchSyslog, noMonth]
    rfl
  simp only [matchTimestamp, atTokenStart, oneOf, List.findSome?_cons, List.findSome?_nil, iso,
    syslog, clock, ite_self]

/-- A space is copied. -/
theorem matchAny_space (previous : Option Char) (text : List Char) :
    matchAny previous (' ' :: text) = none := by
  rw [matchAny, List.findSome?_eq_none_iff]
  intro entry listed
  rw [Option.map_eq_none_iff]
  rcases List.mem_cons.mp listed with rfl | listed'
  · exact matchTimestamp_space previous text
  · generalize found : entry.2 previous (' ' :: text) = result
    have alike := stopsAt_matchers previous entry listed' [] text text
    rw [List.nil_append, found] at alike
    cases alike with
    | none => rfl
    | some rest =>
      have shorter := (consumes_matchers previous entry listed).length_lt found
      simp only [List.length_append, List.length_cons] at shorter
      omega

/-- After the number the scan does not depend on it. -/
theorem scan_suffix {suffix : List Char} (apart : Apart suffix) (previous other : Option Char) :
    scan previous suffix = scan other suffix := by
  cases suffix with
  | nil => rw [scan, scan]
  | cons head tail =>
    obtain rfl := apart head rfl
    rw [scan_cons_of_none (matchAny_space _ _), scan_cons_of_none (matchAny_space _ _)]

/-- Hexadecimal words come before numbers in the table, so the number of digits decides. -/
theorem scan_number {number suffix : List Char} (digits : Digits number) (apart : Apart suffix) :
    scan (some ' ') (number ++ suffix) =
      (if 6 ≤ number.length then "<HEX>" else "<NUM>").toList ++ scan none suffix := by
  rw [scan_of_some (matchAny_number apart digits), scan_suffix apart]

/-- The scans of two texts that differ in a number give the same when both numbers are short or both
are long. -/
theorem scan_eq_scan_iff {before number number' suffix : List Char} (plain : Plain before)
    (digits : Digits number) (digits' : Digits number') (plain' : Plain suffix)
    (apart : Apart suffix) :
    scan none (before ++ ' ' :: (number ++ suffix)) =
        scan none (before ++ ' ' :: (number' ++ suffix)) ↔
      (6 ≤ number.length ↔ 6 ≤ number'.length) := by
  obtain ⟨scanned, same, same'⟩ : ∃ scanned,
      scan none (before ++ ' ' :: (number ++ suffix)) =
          scanned ++ scan (some ' ') (number ++ suffix) ∧
        scan none (before ++ ' ' :: (number' ++ suffix)) =
          scanned ++ scan (some ' ') (number' ++ suffix) :=
    exists_scan_before_space plain digits digits' plain'
  rw [same, same', scan_number digits apart, scan_number digits' apart,
    List.append_cancel_left_eq, List.append_cancel_right_eq, String.toList_inj]
  by_cases long : 6 ≤ number.length <;> by_cases long' : 6 ≤ number'.length <;>
    simp [long, long']

/-- Lines that differ in a standalone number have the same template exactly when both numbers have
fewer than six digits or both have at least six; and every match consumes characters of the text. -/
theorem normalizeTemplateV1_number :
    (∀ before number number' suffix : String, Plain before.toList →
      before.toList.getLast? = some ' ' → Plain suffix.toList → Apart suffix.toList →
      Digits number.toList → Digits number'.toList →
        (normalizeTemplateV1 (before ++ number ++ suffix) =
            normalizeTemplateV1 (before ++ number' ++ suffix) ↔
          (6 ≤ number.length ↔ 6 ≤ number'.length))) ∧
      ∀ entry ∈ matchers, ∀ previous text rest, entry.2 previous text = some rest →
        ∃ consumed, consumed ≠ [] ∧ text = consumed ++ rest := by
  refine ⟨?_, fun entry listed previous => consumes_matchers previous entry listed⟩
  intro before number number' suffix plain space plain' apart digits digits'
  obtain ⟨start, ending⟩ : ∃ start, before.toList = start ++ [' '] :=
    ⟨_, (List.dropLast_append_getLast? _ space).symm⟩
  rw [ending] at plain
  have same := scan_eq_scan_iff (fun char member => plain char (List.mem_append_left _ member))
    digits digits' plain' apart
  simpa only [normalizeTemplateV1, String.toList_append, ending, List.append_assoc,
    List.nil_append, List.cons_append, String.ofList_inj, String.length_toList] using same

/-- A number of six digits reads as one of seven does, and as no short one. -/
theorem normalizeTemplateV1_index :
    normalizeTemplateV1 ("index " ++ "123456" ++ " is out of range") =
        normalizeTemplateV1 ("index " ++ "7654321" ++ " is out of range") ∧
      normalizeTemplateV1 ("index " ++ "42" ++ " is out of range") ≠
        normalizeTemplateV1 ("index " ++ "123456" ++ " is out of range") := by
  have plain : Plain "index ".toList ∧ Plain " is out of range".toList ∧
      Apart " is out of range".toList := by
    decide
  have digits : Digits "42".toList ∧ Digits "123456".toList ∧ Digits "7654321".toList :=
    ⟨⟨by decide, by decide⟩, ⟨by decide, by decide⟩, by decide, by decide⟩
  have long := normalizeTemplateV1_number.1 "index " "123456" "7654321" " is out of range" plain.1
    rfl plain.2.1 plain.2.2 digits.2.1 digits.2.2
  have short := normalizeTemplateV1_number.1 "index " "42" "123456" " is out of range" plain.1
    rfl plain.2.1 plain.2.2 digits.1 digits.2.1
  exact ⟨long.mpr (by decide), mt short.mp (by decide)⟩

/-- A number of six digits is a hexadecimal run. -/
theorem normalizeTemplateV1_differs :
    ¬ ∀ before number number' suffix : String, Plain before.toList →
      before.toList.getLast? = some ' ' → Plain suffix.toList → Apart suffix.toList →
      Digits number.toList → Digits number'.toList →
        normalizeTemplateV1 (before ++ number ++ suffix) =
          normalizeTemplateV1 (before ++ number' ++ suffix) := by
  intro always
  have same := always "index " "42" "123456" "" (by decide) rfl (by decide) (by decide)
    ⟨by decide, by decide⟩ ⟨by decide, by decide⟩
  have differ : ¬ scan none ("index".toList ++ ' ' :: ("42".toList ++ [])) =
      scan none ("index".toList ++ ' ' :: ("123456".toList ++ [])) := by
    rw [scan_eq_scan_iff (by decide) ⟨by decide, by decide⟩ ⟨by decide, by decide⟩ (by decide)
      (by decide)]
    decide
  exact differ (String.ofList_inj.mp same)

end Templates

end Egregore.LogTemplate
