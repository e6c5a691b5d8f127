import Egregore.Base.Patchwork
import Egregore.RedactionMarkers

/-!
# What the parser of markers finds, and what no matcher finds in a marker

The markers of a text do not overlap, so the parser, which goes on after each marker and after each
prefix of none, finds all of them. A marker is made of few characters, in three pieces between
colons, and no matcher finds a secret in it. `redactValue_closesGate` puts both together: what a
value is replaced by is found again, once, and is left alone.
-/

namespace Egregore.Redaction

open Base

section Markers

/-- A well-formed marker. -/
@[ext]
structure Marker where
  secretClass : SecretClass
  hashPrefix : List Char
  length : hashPrefix.length = hashPrefixLen
  hex : ∀ char ∈ hashPrefix, isLowerHex char = true

/-- What the parser reads of a marker. -/
def Marker.inner (marker : Marker) : List Char :=
  marker.secretClass.asStr.toList ++ ':' :: marker.hashPrefix

def Marker.text (marker : Marker) : List Char := markerText marker.secretClass marker.hashPrefix

/-- What the parser returns for a marker. -/
def Marker.pair (marker : Marker) : SecretClass × String :=
  (marker.secretClass, String.ofList marker.hashPrefix)

variable {rest text inner : List Char} {marker other : Marker} {pair : SecretClass × String}

/-- A marker is its prefix, what stands inside and the closing bracket. -/
theorem Marker.text_eq (marker : Marker) :
    marker.text = markerPrefix.toList ++ (marker.inner ++ ['>']) := by
  simp [Marker.text, markerText, Marker.inner]

/-- Class and hash determine a marker. -/
theorem Marker.pair_injective : Function.Injective Marker.pair := by
  intro marker other same
  obtain ⟨sameClass, sameHash⟩ := Prod.mk.inj same
  exact Marker.ext sameClass (String.ofList_injective sameHash)

/-- A hexadecimal digit is a decimal one or a letter up to f. -/
theorem code_of_isLowerHex {char : Char} (hex : isLowerHex char = true) :
    (48 ≤ char.toNat ∧ char.toNat ≤ 57) ∨ (97 ≤ char.toNat ∧ char.toNat ≤ 102) := by
  simp only [isLowerHex, Char.isDigit, Bool.or_eq_true, Bool.and_eq_true, decide_eq_true_eq,
    Char.le_def, UInt32.le_iff_toNat_le, ge_iff_le] at hex
  exact hex

/-- So it is one byte. -/
theorem byteLength_of_isLowerHex {chars : List Char}
    (hex : ∀ char ∈ chars, isLowerHex char = true) : byteLength chars = chars.length := by
  apply byteLength_of_ascii
  intro char member
  have code := code_of_isLowerHex (hex char member)
  omega

/-- A class is read from its name and from no other. -/
theorem fromName_eq_some_iff {name : String} {secretClass : SecretClass} :
    SecretClass.fromName name = some secretClass ↔ name = secretClass.asStr := by
  constructor
  · intro named
    rw [SecretClass.fromName.eq_def] at named
    split at named <;> cases named <;> rfl
  · rintro rfl
    cases secretClass <;> rfl

/-- No name of a class holds a colon. -/
theorem colon_not_mem_asStr (secretClass : SecretClass) : ':' ∉ secretClass.asStr.toList := by
  cases secretClass <;> decide

/-- What is inside a marker is what the parser accepts. -/
theorem parseMarker_eq_some_iff :
    parseMarker inner = some pair ↔ ∃ marker : Marker, inner = marker.inner ∧ marker.pair = pair := by
  constructor
  · intro parsed
    rw [parseMarker] at parsed
    split at parsed
    · cases parsed
    next className hashPrefix split =>
      split at parsed
      · cases parsed
      next secretClass named =>
        split at parsed
        · next checked =>
            obtain ⟨length, hex⟩ := checked
            rw [List.all_eq_true] at hex
            rw [byteLength_of_isLowerHex hex] at length
            have name := fromName_eq_some_iff.mp named
            refine ⟨⟨secretClass, hashPrefix, length, hex⟩, ?_, Option.some.inj parsed⟩
            rw [of_splitOnce split, Marker.inner, ← name]
            simp
        · cases parsed
  · rintro ⟨marker, rfl, rfl⟩
    have split := splitOnce_append_cons (colon_not_mem_asStr marker.secretClass) marker.hashPrefix
    have named : SecretClass.fromName (String.ofList marker.secretClass.asStr.toList) =
        some marker.secretClass := fromName_eq_some_iff.mpr (by simp)
    have checked : byteLength marker.hashPrefix = hashPrefixLen ∧
        marker.hashPrefix.all isLowerHex = true :=
      ⟨(byteLength_of_isLowerHex marker.hex).trans marker.length, List.all_eq_true.mpr marker.hex⟩
    simp only [parseMarker, Marker.inner, split, named, if_pos checked, Marker.pair]

end Markers

section Presence

variable {rest text lead before inner after : List Char} {marker : Marker}

open Classical in
/-- The marker that a text starts with. -/
noncomputable def starting (rest : List Char) : Option Marker :=
  if starts : ∃ marker : Marker, marker.text <+: rest then some starts.choose else none

/-- The markers of a text, in order. -/
noncomputable def markersIn (text : List Char) : List Marker := text.tails.filterMap starting

/-- The bracket closes a marker where it first stands. -/
theorem Marker.end_not_mem_inner (marker : Marker) : '>' ∉ marker.inner := by
  rw [Marker.inner, List.mem_append, List.mem_cons]
  rintro (inClass | sign | inHash)
  · revert inClass
    cases marker.secretClass <;> decide
  · cases sign
  · exact absurd (marker.hex _ inHash) (by decide)

/-- What the parser does with a text that starts with a marker. -/
theorem Marker.splitOnce_end (marker : Marker) (after : List Char) :
    splitOnce ['>'] (marker.inner ++ '>' :: after) = some (marker.inner, after) :=
  splitOnce_append_cons marker.end_not_mem_inner after

/-- A text that starts with a marker goes on behind its bracket. -/
theorem Marker.exists_of_prefix (starts : marker.text <+: rest) :
    ∃ after, rest = markerPrefix.toList ++ (marker.inner ++ '>' :: after) := by
  obtain ⟨after, rfl⟩ := starts
  exact ⟨after, by simp [Marker.text_eq]⟩

/-- A text starts with one marker at most. -/
theorem Marker.eq_of_prefix {other : Marker} (starts : marker.text <+: rest)
    (otherStarts : other.text <+: rest) : marker = other := by
  obtain ⟨after, rfl⟩ := Marker.exists_of_prefix starts
  obtain ⟨after', same⟩ := Marker.exists_of_prefix otherStarts
  have bodies := List.append_cancel_left same
  have found := marker.splitOnce_end after
  rw [bodies, other.splitOnce_end] at found
  obtain ⟨sameInner, -⟩ := Prod.mk.inj (Option.some.inj found)
  have parsed := parseMarker_eq_some_iff.mpr ⟨marker, rfl, rfl⟩
  rw [← sameInner, parseMarker_eq_some_iff.mpr ⟨other, rfl, rfl⟩] at parsed
  exact Marker.pair_injective (Option.some.inj parsed.symm)

/-- The parser finds at the start of a text the marker that stands there. -/
theorem starting_eq_some_iff : starting rest = some marker ↔ marker.text <+: rest := by
  rw [starting]
  constructor
  · intro found
    split at found
    · next starts => exact Option.some.inj found ▸ starts.choose_spec
    · cases found
  · intro starts
    have exists_ : ∃ marker : Marker, marker.text <+: rest := ⟨marker, starts⟩
    rw [dif_pos exists_]
    exact congrArg some (Marker.eq_of_prefix exists_.choose_spec starts)

/-- It finds none where none stands. -/
theorem starting_eq_none_iff :
    starting rest = none ↔ ∀ marker : Marker, ¬ marker.text <+: rest := by
  rw [Option.eq_none_iff_forall_ne_some]
  exact forall_congr' fun _ => not_congr starting_eq_some_iff

/-- The markers of a text are the one at its start and those behind. -/
theorem markersIn_cons (char : Char) (rest : List Char) :
    markersIn (char :: rest) = (starting (char :: rest)).toList ++ markersIn rest := by
  rw [markersIn, List.tails_cons, List.filterMap_cons]
  cases starting (char :: rest) <;> rfl

/-- The markers of a text are those that occur in it. -/
theorem mem_markersIn : marker ∈ markersIn text ↔ marker.text <:+: text := by
  simp only [markersIn, List.mem_filterMap, List.mem_tails, starting_eq_some_iff]
  constructor
  · rintro ⟨rest, suffix, starts⟩
    exact starts.isInfix.trans suffix.isInfix
  · intro occurs
    obtain ⟨rest, starts, suffix⟩ := List.infix_iff_prefix_suffix.mp occurs
    exact ⟨rest, suffix, starts⟩

/-- A text is without markers when it contains none. -/
theorem markersIn_eq_nil_iff : markersIn text = [] ↔ ∀ marker : Marker, ¬ marker.text <:+: text := by
  rw [List.eq_nil_iff_forall_not_mem]
  exact forall_congr' fun _ => not_congr mem_markersIn

/-- An empty text has no marker. -/
@[simp] theorem markersIn_nil : markersIn [] = [] := by
  rw [markersIn_eq_nil_iff]
  intro marker occurs
  have empty := List.infix_nil.mp occurs
  rw [Marker.text_eq] at empty
  exact absurd (List.append_eq_nil_iff.mp empty).1 (by decide)

/-- What no marker starts in is passed over. -/
theorem markersIn_append_of_none
    (none : ∀ front back, lead = front ++ back → back ≠ [] →
      ∀ marker : Marker, ¬ marker.text <+: back ++ rest) :
    markersIn (lead ++ rest) = markersIn rest := by
  induction lead with
  | nil => rfl
  | cons char lead ih =>
      have here := starting_eq_none_iff.mpr (none [] (char :: lead) rfl (by simp))
      rw [List.cons_append] at here
      rw [List.cons_append, markersIn_cons, here, Option.toList_none, List.nil_append]
      exact ih fun front back split ne => none (char :: front) back (by rw [split]; rfl) ne

/-- A marker starts with its bracket. -/
theorem markersIn_append_of_not_mem (absent : '<' ∉ lead) :
    markersIn (lead ++ rest) = markersIn rest := by
  apply markersIn_append_of_none
  rintro front back rfl ne marker starts
  obtain ⟨after, same⟩ := Marker.exists_of_prefix starts
  obtain ⟨head, tail, rfl⟩ := List.exists_cons_of_ne_nil ne
  have bracket : head = '<' := (List.cons.inj same).1
  exact absent (by simp [bracket])

/-- A marker opens one bracket, at its start. -/
theorem Marker.bracket_not_mem (marker : Marker) : '<' ∉ marker.text.tail := by
  have split : marker.text.tail = "REDACTED:".toList ++ (marker.inner ++ ['>']) := by
    rw [Marker.text_eq]
    rfl
  rw [split, List.mem_append, List.mem_append, Marker.inner, List.mem_append, List.mem_cons]
  rintro (inPrefix | (inClass | sign | inHash) | inEnd)
  · revert inPrefix
    decide
  · revert inClass
    cases marker.secretClass <;> decide
  · cases sign
  · exact absurd (marker.hex _ inHash) (by decide)
  · revert inEnd
    decide

/-- After a marker, the rest is searched. -/
theorem markersIn_marker (marker : Marker) (after : List Char) :
    markersIn (marker.text ++ after) = marker :: markersIn after := by
  have here : starting (marker.text ++ after) = some marker :=
    starting_eq_some_iff.mpr (List.prefix_append ..)
  have split : marker.text = '<' :: marker.text.tail := by
    rw [Marker.text_eq]
    rfl
  rw [split, List.cons_append] at here ⊢
  rw [markersIn_cons, here, markersIn_append_of_not_mem marker.bracket_not_mem]
  rfl

end Presence

section Parser

variable {text before body after rest inner : List Char}

/-- Every marker starts with the common prefix. -/
theorem Marker.prefix_prefix (marker : Marker) : markerPrefix.toList <+: marker.text := by
  rw [Marker.text_eq]
  exact List.prefix_append ..

/-- The search for the prefix passes over no marker. -/
theorem markersIn_of_splitOnce
    (found : splitOnce markerPrefix.toList rest = some (before, body)) :
    markersIn rest = markersIn (markerPrefix.toList ++ body) := by
  rw [of_splitOnce found, List.append_assoc]
  apply markersIn_append_of_none
  rintro front back rfl ne marker starts
  have noPrefix := splitOnce_first found ne
  rw [List.append_assoc] at noPrefix
  exact noPrefix (marker.prefix_prefix.trans starts)

/-- A prefix that starts no marker is passed over. -/
theorem markersIn_prefix_of_none
    (none : ∀ marker : Marker, ¬ marker.text <+: markerPrefix.toList ++ body) :
    markersIn (markerPrefix.toList ++ body) = markersIn body := by
  have split : markerPrefix.toList = '<' :: "REDACTED:".toList := rfl
  have here := starting_eq_none_iff.mpr none
  rw [split, List.cons_append] at here ⊢
  rw [markersIn_cons, here, Option.toList_none, List.nil_append]
  exact markersIn_append_of_not_mem (by decide)

/-- A marker needs its end. -/
theorem Marker.not_prefix_of_unended (unended : splitOnce ['>'] body = none) (marker : Marker) :
    ¬ marker.text <:+: body ∧ ¬ marker.text <+: markerPrefix.toList ++ body := by
  constructor
  · intro occurs
    refine splitOnce_ne_none (List.IsInfix.trans ?_ occurs) unended
    rw [Marker.text_eq, ← List.append_assoc]
    exact (List.suffix_append ..).isInfix
  · intro starts
    obtain ⟨after, same⟩ := Marker.exists_of_prefix starts
    rw [List.append_cancel_left same, marker.splitOnce_end] at unended
    cases unended

/-- The parser finds the markers of a text, all of them and in order. -/
theorem parseMarkers_eq (text : List Char) :
    parseMarkers text = (markersIn text).map Marker.pair := by
  induction text using parseMarkers.induct with
  | case1 rest missing =>
      have nothing : markersIn rest = [] :=
        markersIn_eq_nil_iff.mpr fun marker occurs =>
          splitOnce_ne_none (marker.prefix_prefix.isInfix.trans occurs) missing
      rw [parseMarkers, nothing]
      split
      · rfl
      · next found => rw [missing] at found; cases found
  | case2 rest before body found unended =>
      have nothing : markersIn rest = [] := by
        rw [markersIn_of_splitOnce found,
          markersIn_prefix_of_none fun marker => (marker.not_prefix_of_unended unended).2]
        exact markersIn_eq_nil_iff.mpr fun marker => (marker.not_prefix_of_unended unended).1
      rw [parseMarkers, nothing]
      split
      · rfl
      next found' =>
        rw [found] at found'
        cases found'
        split
        · rfl
        next ended =>
          rw [unended] at ended
          cases ended
  | case3 rest before body found inner after ended marker parsed ih =>
      obtain ⟨marker, rfl, rfl⟩ := parseMarker_eq_some_iff.mp parsed
      have whole : markerPrefix.toList ++ body = marker.text ++ after := by
        rw [of_splitOnce ended, Marker.text_eq]
        simp
      rw [markersIn_of_splitOnce found, whole, markersIn_marker, List.map_cons, ← ih, parseMarkers]
      split
      · next missing =>
          rw [missing] at found
          cases found
      next found' =>
        rw [found] at found'
        cases found'
        split
        · next missing =>
            rw [missing] at ended
            cases ended
        next ended' =>
          rw [ended] at ended'
          cases ended'
          rw [parsed]
  | case4 rest before body found inner after ended unparsed ih =>
      have none : ∀ marker : Marker, ¬ marker.text <+: markerPrefix.toList ++ body := by
        intro marker starts
        obtain ⟨after', same⟩ := Marker.exists_of_prefix starts
        rw [List.append_cancel_left same, marker.splitOnce_end] at ended
        obtain ⟨rfl, -⟩ := Prod.mk.inj (Option.some.inj ended)
        rw [parseMarker_eq_some_iff.mpr ⟨marker, rfl, rfl⟩] at unparsed
        cases unparsed
      rw [markersIn_of_splitOnce found, markersIn_prefix_of_none none, ← ih, parseMarkers]
      split
      · next missing =>
          rw [missing] at found
          cases found
      next found' =>
        rw [found] at found'
        cases found'
        split
        · next missing =>
            rw [missing] at ended
            cases ended
        next ended' =>
          rw [ended] at ended'
          cases ended'
          rw [unparsed]

end Parser

section Seams

variable {before middle after lead rest : List Char}

/-- A marker is not empty. -/
theorem Marker.text_ne_nil (marker : Marker) : marker.text ≠ [] := by
  rw [Marker.text_eq]
  exact fun none => absurd (List.append_eq_nil_iff.mp none).1 (by decide)

/-- What is before a seam that no marker crosses adds no marker. -/
theorem markersIn_append_left (without : ∀ marker : Marker, ¬ marker.text <:+: before)
    (clear : ∀ marker : Marker, ¬ Straddles marker.text before rest) :
    markersIn (before ++ rest) = markersIn rest := by
  apply markersIn_append_of_none
  rintro front back rfl ne marker starts
  rcases List.prefix_or_prefix_of_prefix starts (List.prefix_append back rest) with
    within | ⟨trail, crosses⟩
  · exact without marker (within.isInfix.trans (List.suffix_append ..).isInfix)
  · by_cases nothing : trail = []
    · subst nothing
      rw [List.append_nil] at crosses
      exact without marker (crosses ▸ (List.suffix_append ..).isInfix)
    · refine clear marker ⟨back, trail, ne, nothing, crosses.symm, List.suffix_append .., ?_⟩
      rw [← crosses] at starts
      exact (List.prefix_append_right_inj back).mp starts

/-- What is after a seam that no marker crosses adds no marker. -/
theorem markersIn_append_right (without : ∀ marker : Marker, ¬ marker.text <:+: after)
    (clear : ∀ marker : Marker, ¬ Straddles marker.text middle after) :
    markersIn (middle ++ after) = markersIn middle := by
  induction middle with
  | nil =>
      rw [List.nil_append, markersIn_eq_nil_iff.mpr without, markersIn_nil]
  | cons char middle ih =>
      have same : starting (char :: middle ++ after) = starting (char :: middle) := by
        ext marker
        rw [starting_eq_some_iff, starting_eq_some_iff]
        constructor
        · intro starts
          rcases List.prefix_or_prefix_of_prefix starts
            (List.prefix_append (char :: middle) after) with within | ⟨trail, crosses⟩
          · exact within
          · by_cases nothing : trail = []
            · subst nothing
              rw [← crosses, List.append_nil]
            · exfalso
              refine clear marker ⟨char :: middle, trail, List.cons_ne_nil _ _, nothing,
                crosses.symm, List.suffix_rfl, ?_⟩
              rw [← crosses] at starts
              exact (List.prefix_append_right_inj (char :: middle)).mp starts
        · exact fun starts => starts.trans (List.prefix_append ..)
      rw [List.cons_append] at same ⊢
      rw [markersIn_cons, markersIn_cons, same, ih fun marker straddles =>
        clear marker straddles.cons]

end Seams

section Unsuspicious

variable {text before after : List Char} {stride : Nat}

/-- The characters that no marker has and that most matchers look for. -/
def isForeign (char : Char) : Bool :=
  char = '-' || char = '/' || char = 'I' || char = 'J' || char = '=' || char = ' ' || char = '@'

/-- No marker has a foreign character. -/
theorem Marker.not_foreign (marker : Marker) : ∀ char ∈ marker.text, isForeign char = false := by
  intro char member
  simp only [Marker.text_eq, Marker.inner, List.mem_append, List.mem_cons, List.not_mem_nil,
    or_false] at member
  rcases member with inPrefix | (inClass | rfl | inHash) | rfl
  · revert char
    decide
  · revert char
    cases marker.secretClass <;> decide
  · rfl
  · have code := code_of_isLowerHex (marker.hex char inHash)
    by_contra foreign
    simp only [isForeign, Bool.not_eq_false, Bool.or_eq_true, decide_eq_true_eq] at foreign
    rcases foreign with (((((rfl | rfl) | rfl) | rfl) | rfl) | rfl) | rfl <;>
      exact absurd code (by decide)
  · rfl

/-- The words that are in no marker: those with a foreign character, and those with an underscore
that are in the name of no class. -/
def isAlien (word : String) : Bool :=
  word.toList.any isForeign || '_' ∈ word.toList && ':' ∉ word.toList &&
    [SecretClass.apiToken, .sshPrivateKey, .databaseUrl, .cloudCredential, .webhookSecret,
      .sessionCookie, .envSecret, .email].all fun secretClass =>
        !decide (word.toList <:+: secretClass.asStr.toList)

/-- A word with a character that no marker holds is not part of one. -/
theorem Marker.not_infix_of_isAlien {word : String} (alien : isAlien word = true)
    (marker : Marker) : ¬ word.toList <:+: marker.text := by
  intro occurs
  rw [isAlien, Bool.or_eq_true] at alien
  rcases alien with foreign | unnamed
  · obtain ⟨char, member, isForeign⟩ := List.any_eq_true.mp foreign
    rw [marker.not_foreign char (occurs.subset member)] at isForeign
    cases isForeign
  · simp only [Bool.and_eq_true, decide_eq_true_eq] at unnamed
    obtain ⟨⟨underscore, noColon⟩, unnamed⟩ := unnamed
    have whole : marker.text = "<REDACTED".toList ++ ':' ::
        (marker.secretClass.asStr.toList ++ ':' :: (marker.hashPrefix ++ ['>'])) := by
      simp [Marker.text_eq, Marker.inner, markerPrefix]
    rw [whole] at occurs
    rcases infix_append_cons noColon occurs with inPrefix | later
    · exact absurd (inPrefix.subset underscore) (by decide)
    rcases infix_append_cons noColon later with inClass | inHash
    · have not := List.all_eq_true.mp unnamed marker.secretClass (by
        cases marker.secretClass <;> simp)
      simp [inClass] at not
    · rcases List.mem_append.mp (inHash.subset underscore) with inHex | inEnd
      · exact absurd (marker.hex _ inHex) (by decide)
      · exact absurd inEnd (by decide)

/-- So no search for such a word finds it in a marker. -/
theorem Marker.occurrences_eq_nil {word : String} (alien : isAlien word = true)
    (marker : Marker) (stride : Nat) : occurrences (startsWith word) stride marker.text = [] := by
  apply Base.occurrences_eq_nil
  intro before rest split
  by_contra starts
  have isPrefix : word.toList <+: rest := by simpa [startsWith] using starts
  refine marker.not_infix_of_isAlien alien (isPrefix.isInfix.trans ?_)
  rw [split]
  exact (List.suffix_append ..).isInfix

/-- Nor does a marker have such a word in another case, where it has a foreign sign. -/
theorem Marker.occurrences_lower_eq_nil {word : String}
    (foreign : (word.toList.any fun char => isForeign char && !char.isLower) = true)
    (marker : Marker) (stride : Nat) :
    occurrences (startsWithLower word) stride marker.text = [] := by
  apply Base.occurrences_eq_nil
  intro before rest split
  by_contra starts
  have isPrefix : word.toList <+: rest.map Char.toLower := by simpa [startsWithLower] using starts
  obtain ⟨lower, member, sign⟩ := List.any_eq_true.mp foreign
  rw [Bool.and_eq_true, Bool.not_eq_true'] at sign
  obtain ⟨char, inRest, same⟩ := List.mem_map.mp (isPrefix.subset member)
  have inText : char ∈ marker.text := split ▸ List.mem_append_right before inRest
  have clear := marker.not_foreign char inText
  rw [eq_of_toLower_eq same sign.2, sign.1] at clear
  cases clear

/-- No matcher finds a secret in a marker. -/
theorem Marker.detectSecret_eq_none (marker : Marker) :
    detectSecret (String.ofList marker.text) = none := by
  have ssh : findSshPrivateKey marker.text = none := by
    rw [findSshPrivateKey, List.findSome?_eq_none_iff]
    intro word member
    have alien : ∀ word ∈ sshMarkers, isAlien word = true := by decide
    rw [marker.occurrences_eq_nil (alien word member)]
    rfl
  have url : findDatabaseUrl marker.text = none := by
    rw [findDatabaseUrl, databaseUrl, Option.map_eq_none_iff, List.findSome?_eq_none_iff]
    intro word member
    have foreign : ∀ word ∈ databaseSchemes,
        (word.toList.any fun char => isForeign char && !char.isLower) = true := by decide
    rw [marker.occurrences_lower_eq_nil (foreign word member)]
    rfl
  have cloud : findCloudCredential marker.text = none := by
    rw [findCloudCredential, cloudCredential, Option.map_eq_none_iff, List.findSome?_eq_none_iff]
    intro word member
    have alien : ∀ word ∈ ["AKIA", "ASIA"], isAlien word = true := by decide
    rw [marker.occurrences_eq_nil (alien word member)]
    rfl
  have webhook : findWebhookSecret marker.text = none := by
    rw [findWebhookSecret, webhookSecret, marker.occurrences_eq_nil (by decide)]
    rfl
  have session : findSessionCookie marker.text = none := by
    rw [findSessionCookie, sessionCookie, marker.occurrences_eq_nil (by decide),
      Option.map_eq_none_iff, List.findSome?_nil, Option.none_or, List.findSome?_eq_none_iff]
    intro word member
    have alien : ∀ word ∈ sessionPrefixes, isAlien word = true := by decide
    rw [marker.occurrences_eq_nil (alien word member)]
    rfl
  have token : findApiToken marker.text = none := by
    have bearer : occurrences (startsWithLower "bearer ") 1 marker.text = [] :=
      marker.occurrences_lower_eq_nil (by decide) 1
    rw [findApiToken, apiToken, bearer, Option.map_eq_none_iff, List.findSome?_nil, Option.or_none,
      List.findSome?_eq_none_iff]
    intro word member
    have alien : ∀ word ∈ apiTokenPrefixes, isAlien word = true := by decide
    rw [marker.occurrences_eq_nil (alien word member)]
    rfl
  have email : findEmail marker.text = none := by
    rw [findEmail, emailAddress, marker.occurrences_eq_nil (by decide)]
    rfl
  have assignment : findEnvSecret marker.text = none := by
    rw [findEnvSecret, marker.occurrences_eq_nil (by decide)]
    rfl
  rw [detectSecret, String.toList_ofList, ssh, url, cloud, webhook, session, token, email,
    assignment]
  rfl

end Unsuspicious

section Closure

variable (blake3 : String → Vector UInt8 32)

/-- The digits of a hash are lower case. -/
theorem isLowerHex_digitChar {digit : Nat} (small : digit < 16) :
    isLowerHex digit.digitChar = true := by
  have all : ∀ digit : Fin 16, isLowerHex (Nat.digitChar digit) = true := by decide
  exact all ⟨digit, small⟩

/-- The text of a hash holds nothing else. -/
theorem isLowerHex_of_mem_toHex {hash : Vector UInt8 32} {char : Char}
    (member : char ∈ toHex hash) : isLowerHex char = true := by
  obtain ⟨byte, -, digit⟩ := List.mem_flatMap.mp member
  have size := byte.toNat_lt
  rcases List.mem_cons.mp digit with rfl | later
  · exact isLowerHex_digitChar (by omega)
  · obtain rfl := List.mem_singleton.mp later
    exact isLowerHex_digitChar (by omega)

/-- It has two digits for each of the 32 bytes. -/
theorem length_toHex (hash : Vector UInt8 32) : (toHex hash).length = 64 := by
  simp [toHex, List.length_flatMap]

/-- The marker of a class in place of a value. -/
def markerOf (value : String) (secretClass : SecretClass) : Marker where
  secretClass := secretClass
  hashPrefix := (toHex (blake3 value)).take hashPrefixLen
  length := by rw [List.length_take, length_toHex]; rfl
  hex char member := isLowerHex_of_mem_toHex (List.mem_of_mem_take member)

variable {blake3} {value : String}

/-- A value without a secret is left. -/
theorem redactValue_of_none (clean : detectSecret value = none) :
    redactValue blake3 value = value := by
  rw [redactValue, clean]

/-- A value with one becomes its marker as a whole. -/
theorem redactValue_of_some {secretClass : SecretClass} {offset : Nat}
    (secret : detectSecret value = some (secretClass, offset)) :
    redactValue blake3 value = String.ofList (markerOf blake3 value secretClass).text := by
  rw [redactValue, secret]
  rfl

/-- A redacted value has no secret. -/
theorem detectSecret_redactValue (blake3 : String → Vector UInt8 32) (value : String) :
    detectSecret (redactValue blake3 value) = none := by
  cases found : detectSecret value with
  | none => rw [redactValue_of_none found, found]
  | some secret =>
      rw [redactValue_of_some found]
      exact Marker.detectSecret_eq_none _

/-- The gate accepts a redacted value, a second pass changes nothing, and between texts that add no
marker the parser returns the markers that are there, which are those of the redacted value. -/
theorem redactValue_closesGate (blake3 : String → Vector UInt8 32) (value : String) :
    detectSecret (redactValue blake3 value) = none ∧
    redactValue blake3 (redactValue blake3 value) = redactValue blake3 value ∧
    ∀ before after : String,
      (∀ marker : Marker, ¬ marker.text <:+: before.toList ∧ ¬ marker.text <:+: after.toList ∧
        ¬ Straddles marker.text before.toList ((redactValue blake3 value).toList ++ after.toList) ∧
        ¬ Straddles marker.text (before.toList ++ (redactValue blake3 value).toList)
          after.toList) →
      parseRedactionMarkers (before ++ redactValue blake3 value ++ after) =
          (markersIn (before ++ redactValue blake3 value ++ after).toList).map Marker.pair ∧
        markersIn (before ++ redactValue blake3 value ++ after).toList =
          markersIn (redactValue blake3 value).toList ∧
        ∀ secretClass offset, detectSecret value = some (secretClass, offset) →
          parseRedactionMarkers (before ++ redactValue blake3 value ++ after) =
            [(secretClass, String.ofList ((toHex (blake3 value)).take hashPrefixLen))] := by
  have clean := detectSecret_redactValue blake3 value
  refine ⟨clean, redactValue_of_none clean, fun before after apart => ?_⟩
  have present : markersIn (before ++ redactValue blake3 value ++ after).toList =
      markersIn (redactValue blake3 value).toList := by
    rw [String.toList_append, String.toList_append, List.append_assoc,
      markersIn_append_left (fun marker => (apart marker).1) fun marker => (apart marker).2.2.1,
      markersIn_append_right (fun marker => (apart marker).2.1) fun marker straddles =>
        (apart marker).2.2.2 straddles.append_left]
  have parsed := parseMarkers_eq (before ++ redactValue blake3 value ++ after).toList
  refine ⟨parsed, present, fun secretClass offset secret => ?_⟩
  rw [parseRedactionMarkers, parsed, present, redactValue_of_some secret, String.toList_ofList]
  have alone := markersIn_marker (markerOf blake3 value secretClass) []
  rw [List.append_nil] at alone
  rw [alone, markersIn_nil]
  rfl

/-- The hash of one address. -/
def addressHash (value : String) : Vector UInt8 32 :=
  if value = "user@example.com" then
    #v[21, 235, 99, 159, 117, 100, 35, 32, 88, 57, 128, 4, 12, 129, 9, 235, 167, 237, 239, 48, 181,
      215, 49, 92, 246, 237, 144, 174, 165, 115, 240, 83]
  else Vector.replicate 32 0

/-- A marker neither starts in a text without its bracket nor ends in one without its end. -/
theorem Marker.apart_of_not_mem {before middle after : List Char} (start : '<' ∉ before)
    (end_ : '>' ∉ after) (marker : Marker) :
    ¬ marker.text <:+: before ∧ ¬ marker.text <:+: after ∧
      ¬ Straddles marker.text before (middle ++ after) ∧
      ¬ Straddles marker.text (before ++ middle) after := by
  have first : ∀ {front back : List Char}, marker.text = front ++ back → front ≠ [] →
      '<' ∈ front := by
    intro front back split ne
    obtain ⟨head, tail, rfl⟩ := List.exists_cons_of_ne_nil ne
    rw [Marker.text_eq] at split
    obtain rfl : '<' = head := (List.cons.inj split).1
    exact List.mem_cons_self
  have last : ∀ {front back : List Char}, marker.text = front ++ back → back ≠ [] →
      '>' ∈ back := by
    intro front back split ne
    have ended : (marker.text).getLast? = some '>' := by
      rw [Marker.text_eq, ← List.append_assoc, List.getLast?_concat]
    rw [split, List.getLast?_append_of_ne_nil front ne] at ended
    exact List.mem_of_getLast? ended
  refine ⟨fun occurs => ?_, fun occurs => ?_, ?_, ?_⟩
  · exact start (occurs.subset (first (List.append_nil _).symm marker.text_ne_nil))
  · exact end_ (occurs.subset (last (List.nil_append _).symm marker.text_ne_nil))
  · rintro ⟨front, back, front_ne, -, split, within, -⟩
    exact start (within.subset (first split front_ne))
  · rintro ⟨front, back, -, back_ne, split, -, within⟩
    exact end_ (within.subset (last split back_ne))

/-- A masked address reads back as one marker of its class, with the digits of its hash. -/
theorem redactValue_closesGate_address :
    parseRedactionMarkers ("mail " ++ redactValue addressHash "user@example.com" ++ " today") =
      [(.email, "15eb639f7564")] := by
  have secret : detectSecret "user@example.com" = some (.email, 0) := by decide
  have gate := (redactValue_closesGate addressHash "user@example.com").2.2 "mail " " today"
    (Marker.apart_of_not_mem (by decide) (by decide))
  rw [gate.2.2 .email 0 secret]
  decide

end Closure

end Egregore.Redaction
