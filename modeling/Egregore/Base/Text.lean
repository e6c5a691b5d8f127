import Mathlib.Algebra.GroupWithZero.Nat
import Mathlib.Data.List.Infix
import Mathlib.Data.List.TakeWhile
import Mathlib.Tactic.Common

/-!
# Text scanning

The character-list forms of the string operations the models use. Splitting and
stripping are characterised by the text they are given back as, so that a proof
about a parser names the parts and never an index.
-/

namespace Egregore.Base

/-- `char::is_whitespace`: the Unicode `White_Space` property. -/
def isWhitespace (char : Char) : Bool :=
  let code := char.toNat
  (9 ≤ code && code ≤ 13) || code == 0x20 || code == 0x85 || code == 0xA0 || code == 0x1680 ||
    (0x2000 ≤ code && code ≤ 0x200A) || code == 0x2028 || code == 0x2029 || code == 0x202F ||
    code == 0x205F || code == 0x3000

/-- What holds of every character of a text is decided along the text. -/
instance (priority := 1100) decidableForallMemText (text : List Char) (kind : Char → Prop)
    [DecidablePred kind] : Decidable (∀ char ∈ text, kind char) :=
  List.decidableBAll kind text

/-- `str::trim`. -/
def trim (text : List Char) : List Char :=
  ((text.dropWhile isWhitespace).reverse.dropWhile isWhitespace).reverse

/-- Nothing is left of a text of white space, and only of that. -/
theorem trim_eq_nil_iff {text : List Char} :
    trim text = [] ↔ ∀ char ∈ text, isWhitespace char = true := by
  simp only [trim, List.reverse_eq_nil_iff, List.dropWhile_eq_nil_iff, List.mem_reverse]
  constructor
  · intro trailing char member
    by_contra visible
    have kept : char ∈ text.dropWhile isWhitespace := by
      have split := List.takeWhile_append_dropWhile (p := isWhitespace) (l := text)
      rw [← split] at member
      rcases List.mem_append.mp member with skipped | kept
      · exact absurd (List.mem_takeWhile_imp skipped) visible
      · exact kept
    exact visible (trailing char kept)
  · exact fun blank char member => blank char ((List.dropWhile_suffix _).subset member)

/-- `str::trim().is_empty()`. -/
def isBlank (text : String) : Bool := (trim text.toList).isEmpty

/-- A blank text holds nothing but white space. -/
theorem isBlank_iff {text : String} :
    isBlank text = true ↔ ∀ char ∈ text.toList, isWhitespace char = true := by
  rw [isBlank, List.isEmpty_iff, trim_eq_nil_iff]

/-- A trailing whitespace character does not make a text visible. -/
theorem isBlank_append_whitespace (text : String) (char : Char)
    (space : isWhitespace char = true) :
    isBlank (text ++ String.ofList [char]) = isBlank text := by
  rw [Bool.eq_iff_iff, isBlank_iff, isBlank_iff, String.toList_append, String.toList_ofList]
  constructor
  · exact fun blank other member => blank other (List.mem_append_left _ member)
  · intro blank other member
    rcases List.mem_append.mp member with member | member
    · exact blank other member
    · obtain rfl := List.mem_singleton.mp member
      exact space

/-- `str::split_once`, at the first occurrence of the separator. -/
def splitOnce (separator : List Char) : List Char → Option (List Char × List Char)
  | [] => if separator.isEmpty then some ([], []) else none
  | head :: tail =>
      if separator.isPrefixOf (head :: tail) then
        some ([], (head :: tail).drop separator.length)
      else (splitOnce separator tail).map fun (before, after) => (head :: before, after)

/-- The separator is found where it first occurs. -/
theorem splitOnce_append {separator before after : List Char}
    (apart : ∀ char tail, (char :: tail) <:+ before →
      ¬ separator <+: char :: tail ++ separator ++ after) :
    splitOnce separator (before ++ separator ++ after) = some (before, after) := by
  induction before with
  | nil =>
      cases separator with
      | nil => cases after <;> simp [splitOnce]
      | cons mark marks =>
          have starts : (mark :: marks).isPrefixOf (mark :: (marks ++ after)) = true :=
            List.isPrefixOf_iff_prefix.mpr (List.prefix_append (mark :: marks) after)
          simp [splitOnce, starts]
  | cons head tail ih =>
      have later := ih fun char rest suffix =>
        apart char rest (suffix.trans (List.suffix_cons head tail))
      have here := apart head tail (List.suffix_refl _)
      rw [List.append_assoc, List.cons_append, ← List.append_assoc, splitOnce, if_neg, later]
      · rfl
      · rw [List.isPrefixOf_iff_prefix]
        simpa using here

/-- A text is cut at the first separator. -/
theorem splitOnce_append_cons {separator : Char} {before : List Char} (absent : separator ∉ before)
    (after : List Char) :
    splitOnce [separator] (before ++ separator :: after) = some (before, after) := by
  have found : splitOnce [separator] (before ++ [separator] ++ after) = some (before, after) := by
    apply splitOnce_append
    rintro char tail ⟨front, rfl⟩ ⟨rest, starts⟩
    obtain ⟨rfl, -⟩ : separator = char ∧ _ := by simpa using starts
    exact absent (by simp)
  simpa using found

/-- A text without a character of the separator is not cut. -/
theorem splitOnce_eq_none {separator : List Char} {text : List Char} {mark : Char}
    (needs : mark ∈ separator) (absent : mark ∉ text) : splitOnce separator text = none := by
  induction text with
  | nil =>
      have nonempty : separator.isEmpty = false :=
        List.isEmpty_eq_false_iff.mpr (List.ne_nil_of_mem needs)
      simp [splitOnce, nonempty]
  | cons head tail ih =>
      have notPrefix : ¬ separator.isPrefixOf (head :: tail) = true := fun starts =>
        absent ((List.isPrefixOf_iff_prefix.mp starts).subset needs)
      rw [splitOnce, if_neg notPrefix, ih fun member => absent (List.mem_cons_of_mem head member)]
      rfl

/-- What is around the separator, and the separator, is the text. -/
theorem of_splitOnce {separator text before after : List Char}
    (found : splitOnce separator text = some (before, after)) :
    text = before ++ separator ++ after := by
  induction text generalizing before with
  | nil =>
      rw [splitOnce] at found
      split at found
      · next empty =>
          cases found
          simp [List.isEmpty_iff.mp empty]
      · cases found
  | cons head tail ih =>
      rw [splitOnce] at found
      split at found
      · next starts =>
          cases found
          exact List.prefix_append_drop (List.isPrefixOf_iff_prefix.mp starts)
      · obtain ⟨⟨rest, later⟩, split, same⟩ := Option.map_eq_some_iff.mp found
        cases same
        rw [ih split]
        rfl

/-- No separator starts before the one that was found. -/
theorem splitOnce_first {separator text front back after : List Char}
    (found : splitOnce separator text = some (front ++ back, after)) (ne : back ≠ []) :
    ¬ separator <+: back ++ separator ++ after := by
  induction front generalizing text with
  | nil =>
      have split := of_splitOnce found
      cases text with
      | nil =>
          rw [splitOnce] at found
          split at found
          · cases found
            exact absurd rfl ne
          · cases found
      | cons head tail =>
          rw [← List.nil_append back, ← split]
          rw [splitOnce] at found
          split at found
          · cases found
            exact absurd rfl ne
          · next other => rwa [List.isPrefixOf_iff_prefix] at other
  | cons char front ih =>
      cases text with
      | nil =>
          rw [splitOnce] at found
          split at found <;> cases found
      | cons head tail =>
          rw [splitOnce] at found
          split at found
          · cases found
          · obtain ⟨⟨rest, later⟩, split, same⟩ := Option.map_eq_some_iff.mp found
            cases same
            exact ih split

/-- A separator that occurs is found. -/
theorem splitOnce_ne_none {separator text : List Char} (occurs : separator <:+: text) :
    splitOnce separator text ≠ none := by
  induction text with
  | nil => simp [splitOnce, List.infix_nil.mp occurs]
  | cons head tail ih =>
      rw [splitOnce]
      split
      · exact Option.some_ne_none _
      · next other =>
          rw [List.isPrefixOf_iff_prefix] at other
          have later := (List.infix_cons_iff.mp occurs).resolve_left other
          simpa using ih later

/-- A piece between separators has none. -/
theorem not_mem_of_mem_splitOn {separator : Char} {text piece : List Char}
    (member : piece ∈ text.splitOn separator) : separator ∉ piece := by
  induction text generalizing piece with
  | nil =>
      rw [List.splitOn_nil, List.mem_singleton] at member
      simp [member]
  | cons head tail ih =>
      rw [List.splitOn_cons_eq_if_modifyHead] at member
      split at member
      · rcases List.mem_cons.mp member with rfl | member
        · simp
        · exact ih member
      · next differs =>
        cases pieces : tail.splitOn separator with
        | nil => simp [pieces] at member
        | cons first rest =>
            rw [pieces] at ih
            rw [pieces, List.modifyHead_cons] at member
            rcases List.mem_cons.mp member with rfl | member
            · rw [List.mem_cons, not_or]
              exact ⟨fun same => differs (beq_iff_eq.mpr same.symm), ih (List.mem_cons_self ..)⟩
            · exact ih (List.mem_cons_of_mem _ member)

/-- `str::rsplit_once` with a character, at its last occurrence. -/
def rsplitOnce (separator : Char) (text : List Char) : Option (List Char × List Char) :=
  if separator ∈ text then
    some ((text.reverse.dropWhile (· ≠ separator)).tail.reverse,
      (text.reverse.takeWhile (· ≠ separator)).reverse)
  else none

/-- From the right, it is cut at the last separator. -/
theorem rsplitOnce_append {separator : Char} {after : List Char} (absent : separator ∉ after)
    (before : List Char) :
    rsplitOnce separator (before ++ separator :: after) = some (before, after) := by
  have last : ∀ char ∈ after.reverse, decide (char ≠ separator) = true := by
    intro char member
    have := ne_of_mem_of_not_mem (List.mem_reverse.mp member) absent
    simpa using this
  have turned : (before ++ separator :: after).reverse =
      after.reverse ++ separator :: before.reverse := by simp
  rw [rsplitOnce, if_pos (by simp), turned, List.takeWhile_append_of_pos last,
    List.dropWhile_append_of_pos last]
  simp

/-- A text that holds the separator has a last one. -/
theorem exists_rsplit {separator : Char} {text : List Char} (occurs : separator ∈ text) :
    ∃ before after, text = before ++ separator :: after ∧ separator ∉ after := by
  obtain ⟨after, before, turned, absent⟩ :=
    List.eq_append_cons_of_mem (List.mem_reverse.mpr occurs)
  refine ⟨before.reverse, after.reverse, ?_, by simpa using absent⟩
  rw [← List.reverse_reverse text, turned]
  simp

/-- `str::strip_prefix`. -/
def stripPrefix (start text : List Char) : Option (List Char) :=
  if start.isPrefixOf text then some (text.drop start.length) else none

/-- A prefix is taken off the text it stands before. -/
@[simp] theorem stripPrefix_append (start text : List Char) :
    stripPrefix start (start ++ text) = some text := by
  simp [stripPrefix]

/-- Taking a prefix off tells what the text was. -/
theorem stripPrefix_eq_some_iff {start text rest : List Char} :
    stripPrefix start text = some rest ↔ text = start ++ rest := by
  constructor
  · intro stripped
    rw [stripPrefix] at stripped
    split at stripped
    · rename_i starts
      obtain ⟨after, rfl⟩ := List.isPrefixOf_iff_prefix.mp starts
      simpa using stripped
    · cases stripped
  · rintro rfl
    exact stripPrefix_append start rest

/-- It fails where the text does not start with it. -/
theorem stripPrefix_eq_none_iff {start text : List Char} :
    stripPrefix start text = none ↔ ¬ start <+: text := by
  simp [stripPrefix, List.isPrefixOf_iff_prefix]

/-- `str::strip_suffix`. -/
def stripEnding (ending text : List Char) : Option (List Char) :=
  if ending.isSuffixOf text then some (text.take (text.length - ending.length)) else none

/-- Taking an ending off tells what the text was. -/
theorem stripEnding_eq_some_iff {ending text rest : List Char} :
    stripEnding ending text = some rest ↔ text = rest ++ ending := by
  constructor
  · intro stripped
    rw [stripEnding] at stripped
    split at stripped
    · rename_i ends
      obtain ⟨before, rfl⟩ := List.isSuffixOf_iff_suffix.mp ends
      simpa using stripped
    · cases stripped
  · rintro rfl
    simp [stripEnding]

/-- It fails where the text does not end with it. -/
theorem stripEnding_eq_none_iff {ending text : List Char} :
    stripEnding ending text = none ↔ ¬ ending <:+ text := by
  rw [stripEnding, ← List.isSuffixOf_iff_suffix]
  split <;> simp_all

/-- `str::split_at` with a byte offset; nothing where the offset is inside a character or past the
end. -/
def splitAtByte : Nat → List Char → Option (List Char × List Char)
  | 0, text => some ([], text)
  | _ + 1, [] => none
  | offset + 1, char :: text =>
      if char.utf8Size ≤ offset + 1 then
        (splitAtByte (offset + 1 - char.utf8Size) text).map fun (before, after) =>
          (char :: before, after)
      else none

/-- `str::len`, in bytes. -/
def byteLength (text : List Char) : Nat := (text.map Char.utf8Size).sum

/-- The bytes of two texts add up. -/
@[simp] theorem byteLength_append (text more : List Char) :
    byteLength (text ++ more) = byteLength text + byteLength more := by
  simp [byteLength]

/-- A character has as many bytes as its encoding. -/
@[simp] theorem byteLength_cons (char : Char) (text : List Char) :
    byteLength (char :: text) = char.utf8Size + byteLength text := by
  simp [byteLength]

@[simp] theorem byteLength_nil : byteLength [] = 0 := rfl

/-- ASCII characters take a byte each. -/
theorem byteLength_of_ascii {text : List Char} (ascii : ∀ char ∈ text, char.toNat < 128) :
    byteLength text = text.length := by
  induction text with
  | nil => rfl
  | cons char text ih =>
      have size : char.utf8Size = 1 := by
        have small := ascii char List.mem_cons_self
        rw [Char.utf8Size, if_pos]
        rw [UInt32.le_iff_toNat_le]
        change char.toNat ≤ 127
        omega
      rw [byteLength_cons, size, ih fun other member => ascii other (List.mem_cons_of_mem _ member),
        List.length_cons, Nat.add_comm]

/-- A text is cut at the bytes of its first part. -/
theorem splitAtByte_append (before after : List Char) :
    splitAtByte (byteLength before) (before ++ after) = some (before, after) := by
  induction before with
  | nil => simp [splitAtByte]
  | cons char before ih =>
      have positive := char.utf8Size_pos
      obtain ⟨offset, size⟩ : ∃ offset, byteLength (char :: before) = offset + 1 :=
        Nat.exists_eq_succ_of_ne_zero (by rw [byteLength_cons]; omega)
      have rest : offset + 1 - char.utf8Size = byteLength before := by
        rw [← size, byteLength_cons]
        omega
      rw [size, List.cons_append, splitAtByte, if_pos (by rw [← size, byteLength_cons]; omega),
        rest, ih]
      rfl

/-- An offset inside a character cuts nothing. -/
theorem splitAtByte_eq_some_iff {offset : Nat} {text before after : List Char} :
    splitAtByte offset text = some (before, after) ↔
      text = before ++ after ∧ byteLength before = offset := by
  constructor
  · intro split
    induction text generalizing offset before with
    | nil =>
        cases offset with
        | zero =>
            cases split
            exact ⟨rfl, rfl⟩
        | succ offset => cases split
    | cons char text ih =>
        cases offset with
        | zero =>
            cases split
            exact ⟨rfl, rfl⟩
        | succ offset =>
            rw [splitAtByte] at split
            split at split
            · rename_i fits
              obtain ⟨⟨front, back⟩, later, same⟩ := Option.map_eq_some_iff.mp split
              cases same
              obtain ⟨rfl, size⟩ := ih later
              refine ⟨rfl, ?_⟩
              rw [byteLength_cons, size]
              omega
            · cases split
  · rintro ⟨rfl, rfl⟩
    exact splitAtByte_append before after

/-- `str::split_whitespace`. -/
def splitWhitespace (text : List Char) : List (List Char) :=
  (text.splitOnP isWhitespace).filter fun word => !word.isEmpty

/-- `str::contains`. -/
def containsText (text pattern : String) : Bool := decide (pattern.toList <:+: text.toList)

/-! ### ASCII letters -/

/-- The upper case letters of ASCII, by their numbers. -/
theorem isUpper_iff {char : Char} : char.isUpper = true ↔ 65 ≤ char.toNat ∧ char.toNat ≤ 90 := by
  change decide (char.val ≥ 'A'.val ∧ char.val ≤ 'Z'.val) = true ↔ _
  rw [decide_eq_true_iff, ge_iff_le, UInt32.le_iff_toNat_le, UInt32.le_iff_toNat_le]
  exact Iff.rfl

/-- The lower case letters of ASCII, by their numbers. -/
theorem isLower_iff {char : Char} : char.isLower = true ↔ 97 ≤ char.toNat ∧ char.toNat ≤ 122 := by
  change (decide (char.val ≥ 'a'.val) && decide (char.val ≤ 'z'.val)) = true ↔ _
  rw [Bool.and_eq_true, decide_eq_true_iff, decide_eq_true_iff, ge_iff_le,
    UInt32.le_iff_toNat_le, UInt32.le_iff_toNat_le]
  exact Iff.rfl

/-- A character that is no letter is of neither case. -/
theorem isAlpha_eq_false {char : Char} :
    char.isAlpha = false ↔ char.isUpper = false ∧ char.isLower = false :=
  Bool.or_eq_false_iff

/-- Lowering a character that is no upper case letter leaves it. -/
theorem toLower_eq_self {char : Char} (notUpper : char.isUpper = false) : char.toLower = char :=
  dif_neg (of_decide_eq_false notUpper)

/-- Lowering an upper case letter shifts it by the distance of the cases. -/
theorem toNat_toLower {char : Char} (upper : char.isUpper = true) :
    char.toLower.toNat = char.toNat + 32 := by
  have range := isUpper_iff.mp upper
  have lowered := congrArg Char.toNat (dif_pos (of_decide_eq_true upper) : char.toLower = _)
  refine lowered.trans ?_
  change (char.toNat + 32) % 2 ^ 32 = char.toNat + 32
  omega

/-- Folding the case gives letters only from letters. -/
theorem eq_of_toLower_eq {char lower : Char} (same : char.toLower = lower)
    (notLower : lower.isLower = false) : char = lower := by
  cases upper : char.isUpper with
  | false => rwa [toLower_eq_self upper] at same
  | true =>
      have range := isUpper_iff.mp upper
      have lowered := toNat_toLower upper
      have outside : ¬ (97 ≤ lower.toNat ∧ lower.toNat ≤ 122) := fun inside => by
        rw [isLower_iff.mpr inside] at notLower
        cases notLower
      rw [same] at lowered
      omega

end Egregore.Base
