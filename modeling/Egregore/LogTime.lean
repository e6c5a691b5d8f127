import Egregore.Base.FixedWidth
import Egregore.Base.Text

/-!
# Times of a log

`log_graph.rs`: the times of an occurrence, and the RFC 3339 text of a UTC time. Texts of times
compare field by field, after the years as they are written.
-/

namespace Egregore.LogGraph

open Base

/-! ## UTC times -/

/-- `DateTime<Utc>`; a leap second is second 60. -/
structure UtcDateTime where
  year : Int
  month : Nat
  day : Nat
  hour : Nat
  minute : Nat
  second : Nat
  nanosecond : Nat
  month_le : month ≤ 12
  day_le : day ≤ 31
  hour_lt : hour < 24
  minute_lt : minute < 60
  second_le : second ≤ 60
  nanosecond_lt : nanosecond < 10 ^ 9
  deriving DecidableEq, Repr

namespace UtcDateTime

/-- What is written after the year, to the second. -/
def fields (time : UtcDateTime) : List Nat :=
  [time.month, time.day, time.hour, time.minute, time.second]

/-- Each field of a time has two digits. -/
theorem lt_of_mem_fields {time : UtcDateTime} {field : Nat} (member : field ∈ time.fields) :
    field < 10 ^ 2 := by
  have := time.month_le
  have := time.day_le
  have := time.hour_lt
  have := time.minute_lt
  have := time.second_le
  simp only [fields, List.mem_cons, List.not_mem_nil, or_false] at member
  omega

/-- Times compared to the second. -/
abbrev secondOrder : UtcDateTime → UtcDateTime → Ordering :=
  compareLex (compareOn year) (compareOn fields)

/-- `Ord` of `DateTime<Utc>`. -/
abbrev order : UtcDateTime → UtcDateTime → Ordering :=
  compareLex secondOrder (compareOn nanosecond)

instance : Std.TransCmp secondOrder := inferInstance

instance : Std.TransCmp order := inferInstance

/-- Times of one second agree in all fields. -/
theorem secondOrder_eq_iff {time other : UtcDateTime} :
    time.secondOrder other = .eq ↔ time.year = other.year ∧ time.fields = other.fields := by
  rw [secondOrder, compareLex, Ordering.then_eq_eq, compareOn, compareOn,
    Std.LawfulEqCmp.compare_eq_iff_eq, Std.LawfulEqCmp.compare_eq_iff_eq]

/-- Times that are equal in order are equal. -/
theorem order_eq_iff {time other : UtcDateTime} : time.order other = .eq ↔ time = other := by
  constructor
  · intro same
    obtain ⟨year, month, day, hour, minute, second, nanosecond, _, _, _, _, _, _⟩ := time
    obtain ⟨year', month', day', hour', minute', second', nanosecond', _, _, _, _, _, _⟩ := other
    simp only [order, secondOrder, compareLex, compareOn, fields, Ordering.then_eq_eq,
      Std.LawfulEqCmp.compare_eq_iff_eq, List.cons.injEq, and_true] at same
    obtain ⟨⟨rfl, rfl, rfl, rfl, rfl, rfl⟩, rfl⟩ := same
    rfl
  · rintro rfl
    exact Std.ReflCmp.compare_self

/-- `floor_datetime`: the top of the hour. -/
def floorDatetime (time : UtcDateTime) : UtcDateTime where
  __ := time
  minute := 0
  second := 0
  nanosecond := 0
  minute_lt := by decide
  second_le := by decide
  nanosecond_lt := by decide

/-- A time of a whole second. -/
def atSecond (year : Int) (month day hour minute second : Nat) (month_le : month ≤ 12)
    (day_le : day ≤ 31) (hour_lt : hour < 24) (minute_lt : minute < 60) (second_le : second ≤ 60) :
    UtcDateTime :=
  { year, month, day, hour, minute, second, nanosecond := 0, month_le, day_le, hour_lt, minute_lt,
    second_le, nanosecond_lt := by decide }

/-- `num_seconds_from_midnight`: a leap second counts with the second before it. -/
def secondsFromMidnight (time : UtcDateTime) : Nat :=
  time.hour * 3600 + time.minute * 60 + min time.second 59

end UtcDateTime

/-! ## RFC 3339 -/

/-- `SecondsFormat`, of the two that are used. -/
inductive SecondsFormat where
  | secs | nanos
  deriving DecidableEq, Repr

/-- The digits of a year: four, or as many as a later one has. -/
def yearDigits (year : Nat) : Nat := max 4 (Nat.log 10 year + 1)

def yearSign (year : Int) : Char := if year < 0 then '-' else '+'

/-- A year as RFC 3339 writes it, with a sign outside of 0 to 9999. -/
def yearText (year : Int) : List Char :=
  if 0 ≤ year ∧ year ≤ 9999 then padded 4 year.toNat
  else yearSign year :: padded (yearDigits year.natAbs) year.natAbs

/-- The marks before the fields. -/
def fieldMarks : List Char := ['-', '-', 'T', ':', ':']

/-- Fields of two digits, each after its mark. -/
def fieldsText (marks : List Char) (fields : List Nat) : List Char :=
  (marks.zip fields).flatMap fun (mark, field) => mark :: padded 2 field

/-- `to_rfc3339_opts`, with `Z` for the offset. -/
def UtcDateTime.toRfc3339Opts (time : UtcDateTime) (format : SecondsFormat) : String :=
  let seconds := yearText time.year ++ fieldsText fieldMarks time.fields
  String.ofList (match format with
    | .secs => seconds ++ ['Z']
    | .nanos => seconds ++ '.' :: padded 9 time.nanosecond ++ ['Z'])

/-- Years compared as they are written. -/
def yearOrder (year other : Int) : Ordering := charOrder (yearText year) (yearText other)

section Years

/-- A year fits its digits. -/
theorem lt_pow_yearDigits (year : Nat) : year < 10 ^ yearDigits year := by
  have fits : year < 10 ^ (Nat.log 10 year + 1) := Nat.lt_pow_succ_log_self (by decide) year
  exact fits.trans_le (Nat.pow_le_pow_right (by decide) (le_max_right _ _))

/-- Years from 0 to 9999 compare as they are written. -/
theorem yearOrder_eq {year other : Int} (four : 0 ≤ year ∧ year ≤ 9999)
    (four' : 0 ≤ other ∧ other ≤ 9999) : yearOrder year other = compare year other := by
  rw [yearOrder, yearText, yearText, if_pos four, if_pos four',
    charOrder_padded (by omega) (by omega)]
  rcases lt_trichotomy year other with less | rfl | greater
  · rw [compare_lt_iff_lt.mpr less, Nat.compare_eq_lt]
    omega
  · simp
  · rw [compare_gt_iff_gt.mpr greater, Nat.compare_eq_gt]
    omega

/-- A sign comes before every digit. -/
theorem toNat_yearSign_lt (year : Int) : (yearSign year).toNat < 48 := by
  rw [yearSign]
  split <;> decide

/-- A sign or a digit, then digits. -/
theorem exists_yearText (year : Int) : ∃ head tail, yearText year = head :: tail ∧
    head.toNat < 128 ∧ ∀ char ∈ tail, 48 ≤ char.toNat ∧ char.toNat < 58 := by
  rw [yearText]
  split
  · cases digits : padded 4 year.toNat with
    | nil => simpa using congrArg List.length digits
    | cons head tail =>
        have digit {char : Char} (member : char ∈ head :: tail) :
            48 ≤ char.toNat ∧ char.toNat < 58 := toNat_of_mem_padded (digits ▸ member)
        refine ⟨head, tail, rfl, ?_, fun char member => digit (List.mem_cons_of_mem head member)⟩
        have := digit List.mem_cons_self
        omega
  · have sign := toNat_yearSign_lt year
    exact ⟨_, _, rfl, by omega, fun char member => toNat_of_mem_padded member⟩

/-- A sign is not a digit. -/
theorem padded_ne_yearSign (width number : Nat) (year : Int) (digits : List Char) :
    padded width number ≠ yearSign year :: digits := by
  intro written
  have digit := toNat_of_mem_padded
    (written ▸ List.mem_cons_self : yearSign year ∈ padded width number)
  have sign := toNat_yearSign_lt year
  omega

/-- A year is told by its text. -/
theorem yearText_inj {year other : Int} (same : yearText year = yearText other) : year = other := by
  rw [yearText, yearText] at same
  by_cases four : 0 ≤ year ∧ year ≤ 9999
  · rw [if_pos four] at same
    by_cases four' : 0 ≤ other ∧ other ≤ 9999
    · rw [if_pos four'] at same
      have digits := padded_inj (by omega) (by omega) same
      omega
    · rw [if_neg four'] at same
      exact absurd same (padded_ne_yearSign _ _ _ _)
  · rw [if_neg four] at same
    by_cases four' : 0 ≤ other ∧ other ≤ 9999
    · rw [if_pos four'] at same
      exact absurd same.symm (padded_ne_yearSign _ _ _ _)
    · rw [if_neg four'] at same
      obtain ⟨sign, digits⟩ := List.cons.inj same
      have widths := congrArg List.length digits
      rw [length_padded, length_padded] at widths
      have values : year.natAbs = other.natAbs := by
        have fits' := lt_pow_yearDigits other.natAbs
        rw [← widths] at digits fits'
        exact padded_inj (lt_pow_yearDigits year.natAbs) fits' digits
      have signs : year < 0 ↔ other < 0 := by
        by_cases negative : year < 0 <;> by_cases negative' : other < 0 <;>
          simp [yearSign, negative, negative'] at sign ⊢
      omega

/-- Years that are equal in order are equal. -/
theorem yearOrder_eq_eq_iff {year other : Int} : yearOrder year other = .eq ↔ year = other := by
  rw [yearOrder, charOrder_eq_iff]
  exact ⟨yearText_inj, congrArg yearText⟩

/-- What follows the years counts where they are the same. -/
theorem charOrder_yearText {mark : Char} (below : mark.toNat < 48) (year other : Int)
    (back follow : List Char) :
    charOrder (yearText year ++ mark :: back) (yearText other ++ mark :: follow) =
      (yearOrder year other).then (charOrder (mark :: back) (mark :: follow)) := by
  obtain ⟨head, tail, text, ascii, digits⟩ := exists_yearText year
  obtain ⟨head', tail', text', ascii', digits'⟩ := exists_yearText other
  rw [yearOrder, text, text', List.cons_append, List.cons_append, charOrder_cons ascii ascii',
    charOrder_cons ascii ascii', charOrder_append_mark below digits digits', Ordering.then_assoc]

end Years

section Texts

/-- Fields compare as they are written. -/
theorem charOrder_fieldsText {marks : List Char} (ascii : Ascii marks) {values others : List Nat}
    (fits : ∀ value ∈ values, value < 10 ^ 2) (fits' : ∀ value ∈ others, value < 10 ^ 2)
    (length : values.length = marks.length) (length' : others.length = marks.length)
    (back follow : List Char) :
    charOrder (fieldsText marks values ++ back) (fieldsText marks others ++ follow) =
      (compare values others).then (charOrder back follow) := by
  induction marks generalizing values others with
  | nil =>
      obtain rfl := List.eq_nil_of_length_eq_zero length
      obtain rfl := List.eq_nil_of_length_eq_zero length'
      rfl
  | cons mark marks ih =>
      obtain ⟨value, values, rfl⟩ := List.exists_cons_of_length_eq_add_one length
      obtain ⟨other, others, rfl⟩ := List.exists_cons_of_length_eq_add_one length'
      have markAscii := ascii mark List.mem_cons_self
      have later := ih (fun char member => ascii char (List.mem_cons_of_mem mark member))
        (fun field member => fits field (List.mem_cons_of_mem value member))
        (fun field member => fits' field (List.mem_cons_of_mem other member))
        (Nat.succ.inj length) (Nat.succ.inj length')
      have text (value : Nat) (values : List Nat) (back : List Char) :
          fieldsText (mark :: marks) (value :: values) ++ back =
            mark :: (padded 2 value ++ (fieldsText marks values ++ back)) := by
        simp [fieldsText]
      rw [text, text, charOrder_cons markAscii markAscii, Nat.compare_eq_eq.mpr rfl,
        Ordering.eq_then, charOrder_append (ascii_padded _ _) (ascii_padded _ _) (by simp),
        charOrder_padded (fits value List.mem_cons_self) (fits' other List.mem_cons_self), later,
        List.compare_cons_cons, Ordering.then_assoc]

namespace UtcDateTime

variable (time other : UtcDateTime)

/-- The marks between fields are ASCII. -/
theorem ascii_fieldMarks : Ascii fieldMarks := by
  change ∀ mark ∈ fieldMarks, mark.toNat < 128
  decide

/-- Texts of times compare by the years as they are written, then field by field. -/
private theorem charOrder_seconds (back follow : List Char) :
    charOrder (yearText time.year ++ fieldsText fieldMarks time.fields ++ back)
        (yearText other.year ++ fieldsText fieldMarks other.fields ++ follow) =
      ((yearOrder time.year other.year).then (compare time.fields other.fields)).then
        (charOrder back follow) := by
  have fieldsOrder : charOrder (fieldsText fieldMarks time.fields ++ back)
      (fieldsText fieldMarks other.fields ++ follow) =
        (compare time.fields other.fields).then (charOrder back follow) :=
    charOrder_fieldsText ascii_fieldMarks (fun _ => lt_of_mem_fields) (fun _ => lt_of_mem_fields)
      rfl rfl back follow
  have mark : '-'.toNat < 48 := by decide
  rw [List.append_assoc, List.append_assoc, Ordering.then_assoc, ← fieldsOrder]
  exact charOrder_yearText mark ..

/-- Whole seconds are ordered as texts by their years as texts, and then by their fields. -/
theorem byteOrder_toRfc3339_secs :
    byteOrder (time.toRfc3339Opts .secs) (other.toRfc3339Opts .secs) =
      (yearOrder time.year other.year).then (compare time.fields other.fields) := by
  rw [toRfc3339Opts, toRfc3339Opts, byteOrder_ofList, charOrder_seconds, charOrder_self,
    Ordering.then_eq]

/-- With a fraction, the nanoseconds come last. -/
theorem byteOrder_toRfc3339_nanos :
    byteOrder (time.toRfc3339Opts .nanos) (other.toRfc3339Opts .nanos) =
      ((yearOrder time.year other.year).then (compare time.fields other.fields)).then
        (compare time.nanosecond other.nanosecond) := by
  have point : '.'.toNat < 128 := by decide
  rw [toRfc3339Opts, toRfc3339Opts, byteOrder_ofList]
  simp only [List.append_assoc, List.cons_append]
  rw [← List.append_assoc, ← List.append_assoc (yearText other.year), charOrder_seconds,
    charOrder_cons point point, Nat.compare_eq_eq.mpr rfl, Ordering.eq_then,
    charOrder_append (ascii_padded _ _) (ascii_padded _ _) (by simp),
    charOrder_padded time.nanosecond_lt other.nanosecond_lt, charOrder_self, Ordering.then_eq]

variable {time other}

/-- The text to the second tells the second. -/
theorem toRfc3339_secs_eq_iff :
    time.toRfc3339Opts .secs = other.toRfc3339Opts .secs ↔ time.secondOrder other = .eq := by
  rw [← byteOrder_eq_iff, byteOrder_toRfc3339_secs, Ordering.then_eq_eq, yearOrder_eq_eq_iff,
    secondOrder_eq_iff, Std.LawfulEqCmp.compare_eq_iff_eq]

/-- From year 0 to year 9999 the texts to the second are in the order of the seconds. -/
theorem byteOrder_toRfc3339_secs_eq (four : 0 ≤ time.year ∧ time.year ≤ 9999)
    (four' : 0 ≤ other.year ∧ other.year ≤ 9999) :
    byteOrder (time.toRfc3339Opts .secs) (other.toRfc3339Opts .secs) = time.secondOrder other := by
  rw [byteOrder_toRfc3339_secs, yearOrder_eq four four']
  rfl

/-- Within a year the full texts are in the order of the times. -/
theorem byteOrder_toRfc3339_nanos_eq (sameYear : time.year = other.year) :
    byteOrder (time.toRfc3339Opts .nanos) (other.toRfc3339Opts .nanos) = time.order other := by
  rw [byteOrder_toRfc3339_nanos, yearOrder_eq_eq_iff.mpr sameYear]
  simp only [order, secondOrder, compareLex, compareOn, sameYear,
    Std.LawfulEqCmp.compare_eq_iff_eq.mpr, Ordering.eq_then]

end UtcDateTime

end Texts

/-! ## Hours -/

namespace UtcDateTime

/-- The hour that starts at `start`, which does not leave the date of its start. -/
structure InHour (start time : UtcDateTime) : Prop where
  year : time.year = start.year
  month : time.month = start.month
  day : time.day = start.day
  ge : start.secondsFromMidnight ≤ time.secondsFromMidnight
  lt : time.secondsFromMidnight < start.secondsFromMidnight + 3600

/-- A time is in the hour of its floor. -/
theorem inHour_floorDatetime (time : UtcDateTime) : time.floorDatetime.InHour time where
  year := rfl
  month := rfl
  day := rfl
  ge := by
    simp only [floorDatetime, secondsFromMidnight]
    omega
  lt := by
    have := time.minute_lt
    simp only [floorDatetime, secondsFromMidnight]
    omega

variable {time other : UtcDateTime}

/-- Floors with the same text are the same. -/
theorem floorDatetime_eq_of_text
    (same : time.floorDatetime.toRfc3339Opts .secs = other.floorDatetime.toRfc3339Opts .secs) :
    time.floorDatetime = other.floorDatetime := by
  rw [toRfc3339_secs_eq_iff] at same
  rw [← order_eq_iff, order, compareLex, Ordering.then_eq_eq]
  exact ⟨same, Std.ReflCmp.compare_self⟩

end UtcDateTime

/-! ## Times of occurrences -/

/-- What the scan uses of `chrono`; a text that is parsed is taken to UTC. -/
structure Chrono where
  /-- `DateTime::parse_from_rfc3339`. -/
  parseFromRfc3339 : String → Option UtcDateTime
  /-- `NaiveDateTime::parse_from_str`, of a text and a format. -/
  parseFromStr : String → String → Option UtcDateTime
  /-- What is read of a written time is in the second that was written. -/
  reads_back : ∀ written time, parseFromRfc3339 (written.toRfc3339Opts .secs) = some time →
    time.secondOrder written = .eq

/-- No point is in a year. -/
theorem point_not_mem_yearText (year : Int) : '.' ∉ yearText year := by
  intro member
  have digit {width number : Nat} (member : '.' ∈ padded width number) : False := by
    have bound := (toNat_of_mem_padded member).1
    revert bound
    decide
  rw [yearText] at member
  split at member
  · exact digit member
  · rcases List.mem_cons.mp member with sign | member
    · rw [yearSign] at sign
      split at sign <;> exact absurd sign (by decide)
    · exact digit member

/-- A text to the second is no full text. -/
theorem toRfc3339_secs_ne_nanos (time other : UtcDateTime) :
    time.toRfc3339Opts .secs ≠ other.toRfc3339Opts .nanos := by
  intro same
  have texts : yearText time.year ++ fieldsText fieldMarks time.fields ++ ['Z'] =
      yearText other.year ++ fieldsText fieldMarks other.fields ++
        '.' :: padded 9 other.nanosecond ++ ['Z'] := by
    simpa [UtcDateTime.toRfc3339Opts] using congrArg String.toList same
  have point : '.' ∈ yearText time.year ++ fieldsText fieldMarks time.fields ++ ['Z'] := by
    rw [texts]
    simp
  have fields : '.' ∉ fieldsText fieldMarks time.fields := by
    intro member
    obtain ⟨⟨mark, field⟩, listed, member⟩ := List.mem_flatMap.mp member
    rcases List.mem_cons.mp member with rfl | member
    · exact absurd (List.of_mem_zip listed).1 (by decide)
    · have bound := (toNat_of_mem_padded member).1
      revert bound
      decide
  simp only [List.mem_append, List.mem_singleton] at point
  rcases point with (year | field) | zone
  · exact point_not_mem_yearText _ year
  · exact fields field
  · exact absurd zone (by decide)

/-- What reads the texts of some times. -/
def Chrono.ofTimes (times : List UtcDateTime) : Chrono where
  parseFromRfc3339 text := times.find? fun time =>
    time.toRfc3339Opts .secs = text || time.toRfc3339Opts .nanos = text
  parseFromStr _ _ := none
  reads_back written time found := by
    have same := List.find?_some found
    rw [Bool.or_eq_true, decide_eq_true_eq, decide_eq_true_eq] at same
    rcases same with same | same
    · exact UtcDateTime.toRfc3339_secs_eq_iff.mp same
    · exact absurd same.symm (toRfc3339_secs_ne_nanos written time)

/-- A text to the second ends in its zone. -/
theorem getLast?_toRfc3339_secs (time : UtcDateTime) :
    (time.toRfc3339Opts .secs).toList.getLast? = some 'Z' := by
  rw [UtcDateTime.toRfc3339Opts, String.toList_ofList, List.getLast?_concat]

/-- What also reads a text with an offset. -/
def Chrono.withOffset (chrono : Chrono) (offsetText : String) (instant : UtcDateTime)
    (zone : offsetText.toList.getLast? ≠ some 'Z') : Chrono where
  parseFromRfc3339 text := if text = offsetText then some instant else chrono.parseFromRfc3339 text
  parseFromStr := chrono.parseFromStr
  reads_back written time found := by
    split at found
    · next same => exact absurd (getLast?_toRfc3339_secs written) (by rw [same]; exact zone)
    · exact chrono.reads_back written time found

/-- `VALID_TIME_SOURCE_EVENT`. -/
def validTimeSourceEvent : String := "log_event_timestamp"

/-- `VALID_TIME_SOURCE_INFERRED`. -/
def validTimeSourceInferred : String := "inferred_from_transaction_time"

/-- The times of an occurrence. -/
structure ResolvedTime where
  validTime : String
  preciseTime : String
  validTimeSource : String
  bucketStart : String
  bucketFromTimestamp : Bool
  deriving DecidableEq, Repr

section Resolve

variable (chrono : Chrono)

/-- `resolve_time`. -/
def resolveTime (parsed : Option UtcDateTime) (transactionTime txBucket : String) : ResolvedTime :=
  match parsed with
  | none => {
      validTime := transactionTime
      preciseTime := match chrono.parseFromRfc3339 transactionTime with
        | some time => time.toRfc3339Opts .nanos
        | none => transactionTime
      validTimeSource := validTimeSourceInferred
      bucketStart := txBucket
      bucketFromTimestamp := false }
  | some time => {
      validTime := time.toRfc3339Opts .secs
      preciseTime := time.toRfc3339Opts .nanos
      validTimeSource := validTimeSourceEvent
      bucketStart := time.floorDatetime.toRfc3339Opts .secs
      bucketFromTimestamp := true }

/-- `floor_to_hour`. -/
def floorToHour (rfc3339 : String) : Option String :=
  (chrono.parseFromRfc3339 rfc3339).map fun time => time.floorDatetime.toRfc3339Opts .secs

/-- The first format that a text has. -/
def parseFormats (text : List Char) (formats : List String) : Option UtcDateTime :=
  formats.findSome? fun format => chrono.parseFromStr (String.ofList text) format

/-- `parse_timestamp`. -/
def parseTimestamp (header : String) : Option UtcDateTime :=
  let tokens := splitWhitespace (header.toList.dropWhile isWhitespace)
  ((tokens[0]?).bind fun token => chrono.parseFromRfc3339 (String.ofList token)).or <|
    ((tokens[0]?).bind fun date => (tokens[1]?).bind fun time =>
      parseFormats chrono (date ++ ' ' :: time) ["%Y-%m-%d %H:%M:%S%.f", "%Y-%m-%d %H:%M:%S"]).or <|
    (tokens[0]?).bind fun token =>
      parseFormats chrono token ["%Y-%m-%dT%H:%M:%S%.f", "%Y-%m-%dT%H:%M:%S"]

end Resolve

end Egregore.LogGraph
