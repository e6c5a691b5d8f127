import Mathlib.Algebra.GroupWithZero.Nat
import Mathlib.Data.List.Nodup
import Mathlib.Tactic.Common

/-!
# JSON text

The compact text of a JSON value, as `serde_json::to_string` writes it. A text has one value: what
follows a value never continues it. Texts in hexadecimal are at the end. `JsonValue.text_injective`
is the result: equal texts are of equal values. The proof is by induction on the value, over the
texts that may follow it.
-/

namespace Egregore.Base

/-- A `serde_json::Value` of strings, natural numbers, lists and objects; an object keeps its
members in the order they were given. -/
inductive JsonValue where
  | null
  | bool (value : Bool)
  | number (value : Nat)
  | string (value : String)
  | array (items : List JsonValue)
  | object (members : List (String × JsonValue))

section Strings

/-- A hexadecimal digit, in lower case. -/
def hexDigit (value : Nat) : Char := Nat.digitChar value

/-- What follows the backslash of an escaped character. -/
def escapeTail (code : Nat) : Option (List Char) :=
  if code = 0x22 then some ['"']
  else if code = 0x5c then some ['\\']
  else if code = 0x08 then some ['b']
  else if code = 0x0c then some ['f']
  else if code = 0x0a then some ['n']
  else if code = 0x0d then some ['r']
  else if code = 0x09 then some ['t']
  else if code < 0x20 then some ['u', '0', '0', hexDigit (code / 16), hexDigit (code % 16)]
  else none

/-- A character of a string literal. -/
def escapeChar (char : Char) : List Char :=
  match escapeTail char.toNat with
  | some tail => '\\' :: tail
  | none => [char]

/-- A string literal. -/
def quote (text : String) : List Char := '"' :: text.toList.flatMap escapeChar ++ ['"']

/-- Only characters up to the backslash are escaped. -/
private theorem escapeTail_bound {code : Nat} {tail : List Char}
    (escaped : escapeTail code = some tail) : code < 0x5d := by
  unfold escapeTail at escaped
  split_ifs at escaped <;> omega

/-- An escape is one character, or a u with four digits. -/
private theorem escapeTail_length :
    ∀ code < 0x5d, ∀ tail ∈ escapeTail code, tail.length = if tail.head? = some 'u' then 5 else 1 := by
  decide

/-- Different characters have different escapes. -/
private theorem nodup_escapeTail :
    (((List.range 0x5d).filter fun code => (escapeTail code).isSome).map escapeTail).Nodup := by
  decide

/-- So an escape tells its character. -/
private theorem escapeTail_injective {code other : Nat} {tail : List Char}
    (escaped : escapeTail code = some tail) (escaped' : escapeTail other = some tail) :
    code = other := by
  have listed {code : Nat} (escaped : escapeTail code = some tail) :
      code ∈ (List.range 0x5d).filter fun code => (escapeTail code).isSome :=
    List.mem_filter.mpr ⟨List.mem_range.mpr (escapeTail_bound escaped), by rw [escaped]; rfl⟩
  exact List.inj_on_of_nodup_map nodup_escapeTail (listed escaped) (listed escaped')
    (escaped.trans escaped'.symm)

/-- An escape ends where its first character tells it to. -/
private theorem append_inj_of_escapeTail {code other : Nat} {tail after : List Char}
    (first : escapeTail code = some tail) (second : escapeTail other = some after)
    {rest follow : List Char} (same : tail ++ rest = after ++ follow) :
    code = other ∧ rest = follow := by
  have tailLength := escapeTail_length code (escapeTail_bound first) tail first
  have afterLength := escapeTail_length other (escapeTail_bound second) after second
  have heads : tail.head? = after.head? := by
    have := congrArg List.head? same
    rwa [List.head?_append_of_ne_nil, List.head?_append_of_ne_nil] at this
    · rintro rfl
      split at afterLength <;> contradiction
    · rintro rfl
      split at tailLength <;> contradiction
  obtain ⟨rfl, rest⟩ := List.append_inj same (by rw [tailLength, afterLength, heads])
  exact ⟨escapeTail_injective first second, rest⟩

/-- The text of a character can be told from what follows. -/
theorem escapeChar_append_inj {char other : Char} {rest follow : List Char}
    (same : escapeChar char ++ rest = escapeChar other ++ follow) :
    char = other ∧ rest = follow := by
  unfold escapeChar at same
  split at same
  · next tail escaped =>
      split at same
      · next after escaped' =>
          rw [List.cons_append, List.cons_append, List.cons.injEq] at same
          obtain ⟨code, rest⟩ := append_inj_of_escapeTail escaped escaped' same.2
          exact ⟨Char.toNat_inj.mp code, rest⟩
      · next plain =>
          rw [List.cons_append, List.cons_append, List.cons.injEq] at same
          rw [← same.1] at plain
          contradiction
  · next plain =>
      split at same
      · next after escaped =>
          rw [List.cons_append, List.cons_append, List.cons.injEq] at same
          rw [same.1] at plain
          contradiction
      · rw [List.cons_append, List.cons_append, List.cons.injEq] at same
        exact same

/-- It does not start with a quote, so a quote ends the string. -/
theorem head_escapeChar (char : Char) : (escapeChar char).head? ≠ some '"' := by
  unfold escapeChar
  split
  · simp
  · next plain =>
      intro quoted
      rw [List.head?_cons, Option.some.injEq] at quoted
      rw [quoted] at plain
      contradiction

/-- So a string can be told from what follows. -/
private theorem escaped_append_inj (chars others : List Char) {rest follow : List Char}
    (same : chars.flatMap escapeChar ++ '"' :: rest = others.flatMap escapeChar ++ '"' :: follow) :
    chars = others ∧ rest = follow := by
  have unequal : ∀ (char : Char) (tail after : List Char), '"' :: tail ≠ escapeChar char ++ after := by
    intro char tail after equal
    have head := congrArg List.head? equal
    have nonempty : escapeChar char ≠ [] := by
      unfold escapeChar
      split <;> simp
    rw [List.head?_cons, List.head?_append_of_ne_nil _ nonempty] at head
    exact head_escapeChar char head.symm
  induction chars generalizing others with
  | nil =>
      cases others with
      | nil => exact ⟨rfl, (List.cons.inj same).2⟩
      | cons other others =>
          rw [List.flatMap_cons, List.append_assoc] at same
          exact absurd same (unequal _ _ _)
  | cons char chars ih =>
      cases others with
      | nil =>
          rw [List.flatMap_cons, List.append_assoc] at same
          exact absurd same.symm (unequal _ _ _)
      | cons other others =>
          rw [List.flatMap_cons, List.flatMap_cons, List.append_assoc, List.append_assoc] at same
          obtain ⟨rfl, tails⟩ := escapeChar_append_inj same
          obtain ⟨rfl, rest⟩ := ih others tails
          exact ⟨rfl, rest⟩

/-- A string literal ends where it says. -/
theorem quote_append_inj {text other : String} {rest follow : List Char}
    (same : quote text ++ rest = quote other ++ follow) : text = other ∧ rest = follow := by
  simp only [quote, List.cons_append, List.append_assoc, List.nil_append, List.cons.injEq,
    true_and] at same
  obtain ⟨chars, rest⟩ := escaped_append_inj _ _ same
  exact ⟨String.toList_inj.mp chars, rest⟩

end Strings

section Numbers

/-- What follows a number does not continue it. -/
def Stops (rest : List Char) : Prop := ∀ char ∈ rest.head?, char.isDigit = false

/-- A number ends where the digits do. -/
theorem takeWhile_digits {number : Nat} {rest : List Char} (stops : Stops rest) :
    (Nat.toDigits 10 number ++ rest).takeWhile Char.isDigit = Nat.toDigits 10 number := by
  have digits : ∀ char ∈ Nat.toDigits 10 number, char.isDigit = true := by
    intro char member
    exact Nat.isDigit_of_mem_toDigits (by decide) (by decide) member
  rw [List.takeWhile_append_of_pos digits]
  cases rest with
  | nil => simp
  | cons char rest =>
      have := stops char rfl
      simp [this]

/-- A number ends before what does not continue it. -/
theorem digits_append_inj {number other : Nat} {rest follow : List Char} (stops : Stops rest)
    (stops' : Stops follow)
    (same : Nat.toDigits 10 number ++ rest = Nat.toDigits 10 other ++ follow) :
    number = other ∧ rest = follow := by
  have digits : Nat.toDigits 10 number = Nat.toDigits 10 other := by
    rw [← takeWhile_digits stops, same, takeWhile_digits stops']
  refine ⟨?_, List.append_cancel_left (digits ▸ same)⟩
  have read := congrArg (fun chars => Nat.ofDigitChars 10 chars 0) digits
  simpa using read

/-- The text of a number is its decimal digits. -/
theorem toList_toString (number : Nat) : (toString number).toList = Nat.toDigits 10 number := by
  change (Nat.repr number).toList = _
  rw [Nat.repr, String.toList_ofList]

/-- A number can be told from what follows, unless that is a digit. -/
theorem toString_append_inj {number other : Nat} {rest follow : String}
    (stops : Stops rest.toList) (stops' : Stops follow.toList)
    (same : toString number ++ rest = toString other ++ follow) :
    number = other ∧ rest = follow := by
  have chars := congrArg String.toList same
  rw [String.toList_append, String.toList_append, toList_toString, toList_toString] at chars
  obtain ⟨numbers, rests⟩ := digits_append_inj stops stops' chars
  exact ⟨numbers, String.toList_inj.mp rests⟩

/-- Different numbers have different texts. -/
theorem toString_injective {number other : Nat} (same : toString number = toString other) :
    number = other := by
  have texts : toString number ++ "" = toString other ++ "" := by rw [same]
  exact (toString_append_inj (by simp [Stops]) (by simp [Stops]) texts).1

end Numbers

section Values

mutual

/-- The characters of a value. -/
def JsonValue.chars : JsonValue → List Char
  | .null => ['n', 'u', 'l', 'l']
  | .bool true => ['t', 'r', 'u', 'e']
  | .bool false => ['f', 'a', 'l', 's', 'e']
  | .number value => Nat.toDigits 10 value
  | .string value => quote value
  | .array [] => ['[', ']']
  | .array (item :: items) => '[' :: item.chars ++ itemsTail items
  | .object [] => ['\x7b', '\x7d']
  | .object (member :: members) =>
      '\x7b' :: quote member.1 ++ ':' :: member.2.chars ++ membersTail members

/-- The rest of an array. -/
def itemsTail : List JsonValue → List Char
  | [] => [']']
  | item :: items => ',' :: item.chars ++ itemsTail items

/-- The rest of an object. -/
def membersTail : List (String × JsonValue) → List Char
  | [] => ['\x7d']
  | (key, value) :: members => ',' :: quote key ++ ':' :: value.chars ++ membersTail members

end

/-- The form of a value, which its first character shows. -/
def JsonValue.form : JsonValue → Nat
  | .null => 0
  | .bool _ => 1
  | .number _ => 2
  | .string _ => 3
  | .array _ => 4
  | .object _ => 5

/-- The form of the values that start with a character. -/
def formOf (char : Char) : Nat :=
  if char = 'n' then 0
  else if char = 't' ∨ char = 'f' then 1
  else if char.isDigit then 2
  else if char = '"' then 3
  else if char = '[' then 4
  else if char = '\x7b' then 5
  else 6

/-- The first character tells the form of a value. -/
theorem form_of_chars (value : JsonValue) (rest : List Char) :
    (value.chars ++ rest).head?.map formOf = some value.form := by
  cases value with
  | null => rfl
  | bool value => cases value <;> rfl
  | number value =>
      rw [JsonValue.chars]
      cases digits : Nat.toDigits 10 value with
      | nil => exact absurd digits Nat.toDigits_ne_nil
      | cons char chars =>
          have isDigit : char.isDigit = true := by
            have member : char ∈ Nat.toDigits 10 value := by
              rw [digits]
              exact List.mem_cons_self
            exact Nat.isDigit_of_mem_toDigits (by decide) (by decide) member
          have other : ∀ letter : Char, letter.isDigit = false → char ≠ letter := by
            rintro letter notDigit rfl
            rw [isDigit] at notDigit
            contradiction
          simp [formOf, JsonValue.form, isDigit, other 'n' rfl, other 't' rfl, other 'f' rfl]
  | string value => rfl
  | array items => cases items <;> rfl
  | object members => cases members <;> rfl

/-- So values of one text have one form. -/
theorem form_eq_of_append_eq {value other : JsonValue} {rest follow : List Char}
    (same : value.chars ++ rest = other.chars ++ follow) : value.form = other.form := by
  have first := form_of_chars value rest
  rw [same, form_of_chars, Option.some.injEq] at first
  exact first.symm

/-- A character that is no digit ends a number. -/
theorem stops_cons {char : Char} (notDigit : char.isDigit = false) (rest : List Char) :
    Stops (char :: rest) := by
  intro first isFirst
  rw [List.head?_cons, Option.mem_some_iff] at isFirst
  rwa [← isFirst]

/-- What follows an item does. -/
theorem stops_itemsTail (items : List JsonValue) (rest : List Char) :
    Stops (itemsTail items ++ rest) := by
  cases items with
  | nil => exact stops_cons rfl _
  | cons item items => exact stops_cons rfl _

/-- What follows a member does. -/
theorem stops_membersTail (members : List (String × JsonValue)) (rest : List Char) :
    Stops (membersTail members ++ rest) := by
  cases members with
  | nil => exact stops_cons rfl _
  | cons member members => exact stops_cons rfl _

/-- A value starts with none of the characters that close a list. -/
theorem chars_ne_cons {value : JsonValue} {char : Char} (closes : formOf char = 6)
    (rest follow : List Char) : char :: follow ≠ value.chars ++ rest := by
  intro same
  have first := form_of_chars value rest
  rw [← same, List.head?_cons, Option.map_some, closes, Option.some.injEq] at first
  cases value <;> simp [JsonValue.form] at first

mutual

/-- A value ends before what does not continue it. -/
theorem chars_append_inj : (value other : JsonValue) → (rest follow : List Char) → Stops rest →
    Stops follow → value.chars ++ rest = other.chars ++ follow → value = other ∧ rest = follow
  | .null, other, rest, follow, _, _, same => by
      have form := form_eq_of_append_eq same
      cases other with
      | null => exact ⟨rfl, List.append_cancel_left same⟩
      | _ => simp [JsonValue.form] at form
  | .bool value, other, rest, follow, _, _, same => by
      have form := form_eq_of_append_eq same
      cases other with
      | bool other =>
          cases value <;> cases other <;> simp [JsonValue.chars] at same
          · exact ⟨rfl, same⟩
          · exact ⟨rfl, same⟩
      | _ => simp [JsonValue.form] at form
  | .number value, other, rest, follow, stops, stops', same => by
      have form := form_eq_of_append_eq same
      cases other with
      | number other =>
          rw [JsonValue.chars, JsonValue.chars] at same
          obtain ⟨rfl, rest⟩ := digits_append_inj stops stops' same
          exact ⟨rfl, rest⟩
      | _ => simp [JsonValue.form] at form
  | .string value, other, rest, follow, _, _, same => by
      have form := form_eq_of_append_eq same
      cases other with
      | string other =>
          rw [JsonValue.chars, JsonValue.chars] at same
          obtain ⟨rfl, rest⟩ := quote_append_inj same
          exact ⟨rfl, rest⟩
      | _ => simp [JsonValue.form] at form
  | .array [], other, rest, follow, _, _, same => by
      have form := form_eq_of_append_eq same
      cases other with
      | array others =>
          cases others with
          | nil => exact ⟨rfl, List.append_cancel_left same⟩
          | cons other others =>
              simp only [JsonValue.chars, List.cons_append, List.nil_append, List.cons.injEq,
                true_and, List.append_assoc] at same
              exact absurd same (chars_ne_cons rfl _ _)
      | _ => simp [JsonValue.form] at form
  | .array (item :: items), other, rest, follow, _, _, same => by
      have form := form_eq_of_append_eq same
      cases other with
      | array others =>
          cases others with
          | nil =>
              simp only [JsonValue.chars, List.cons_append, List.nil_append, List.cons.injEq,
                true_and, List.append_assoc] at same
              exact absurd same.symm (chars_ne_cons rfl _ _)
          | cons other others =>
              simp only [JsonValue.chars, List.cons_append, List.append_assoc, List.cons.injEq,
                true_and] at same
              obtain ⟨rfl, tails⟩ := chars_append_inj item other _ _ (stops_itemsTail _ _)
                (stops_itemsTail _ _) same
              obtain ⟨rfl, rest⟩ := itemsTail_append_inj items others rest follow tails
              exact ⟨rfl, rest⟩
      | _ => simp [JsonValue.form] at form
  | .object [], other, rest, follow, _, _, same => by
      have form := form_eq_of_append_eq same
      cases other with
      | object others =>
          cases others with
          | nil => exact ⟨rfl, List.append_cancel_left same⟩
          | cons other others =>
              simp [JsonValue.chars, quote] at same
      | _ => simp [JsonValue.form] at form
  | .object ((key, value) :: members), other, rest, follow, _, _, same => by
      have form := form_eq_of_append_eq same
      cases other with
      | object others =>
          cases others with
          | nil => simp [JsonValue.chars, quote] at same
          | cons other others =>
              simp only [JsonValue.chars, List.cons_append, List.append_assoc, List.cons.injEq,
                true_and] at same
              obtain ⟨keys, valued⟩ := quote_append_inj same
              obtain ⟨values, tails⟩ := chars_append_inj value other.2 _ _
                (stops_membersTail _ _) (stops_membersTail _ _) (List.cons.inj valued).2
              obtain ⟨rfl, rest⟩ := membersTail_append_inj members others rest follow tails
              exact ⟨by rw [keys, values], rest⟩
      | _ => simp [JsonValue.form] at form

/-- The items of a list can be told from what follows, each by its own text. -/
theorem itemsTail_append_inj : (items others : List JsonValue) → (rest follow : List Char) →
    itemsTail items ++ rest = itemsTail others ++ follow → items = others ∧ rest = follow
  | [], [], rest, follow, same => ⟨rfl, (List.cons.inj same).2⟩
  | [], other :: others, rest, follow, same => absurd (List.cons.inj same).1 (by decide)
  | item :: items, [], rest, follow, same => absurd (List.cons.inj same).1 (by decide)
  | item :: items, other :: others, rest, follow, same => by
      simp only [itemsTail, List.cons_append, List.append_assoc, List.cons.injEq, true_and] at same
      obtain ⟨rfl, tails⟩ := chars_append_inj item other _ _ (stops_itemsTail _ _)
        (stops_itemsTail _ _) same
      obtain ⟨rfl, rest⟩ := itemsTail_append_inj items others rest follow tails
      exact ⟨rfl, rest⟩

/-- So can the members of an object. -/
theorem membersTail_append_inj : (members others : List (String × JsonValue)) →
    (rest follow : List Char) → membersTail members ++ rest = membersTail others ++ follow →
    members = others ∧ rest = follow
  | [], [], rest, follow, same => ⟨rfl, (List.cons.inj same).2⟩
  | [], other :: others, rest, follow, same => absurd (List.cons.inj same).1 (by decide)
  | member :: members, [], rest, follow, same => absurd (List.cons.inj same).1 (by decide)
  | (key, value) :: members, other :: others, rest, follow, same => by
      simp only [membersTail, List.cons_append, List.append_assoc, List.cons.injEq,
        true_and] at same
      obtain ⟨keys, valued⟩ := quote_append_inj same
      obtain ⟨values, tails⟩ := chars_append_inj value other.2 _ _
        (stops_membersTail _ _) (stops_membersTail _ _) (List.cons.inj valued).2
      obtain ⟨rfl, rest⟩ := membersTail_append_inj members others rest follow tails
      exact ⟨by rw [keys, values], rest⟩

end

/-- `serde_json::to_string`. -/
def JsonValue.text (value : JsonValue) : String := String.ofList value.chars

/-- A text has one value. -/
theorem JsonValue.text_injective : Function.Injective JsonValue.text := by
  intro value other same
  have chars := String.ofList_injective same
  refine (chars_append_inj value other [] [] (by simp [Stops]) (by simp [Stops]) ?_).1
  rw [chars]

end Values

section Hexadecimal

/-- A character as six hexadecimal digits. -/
def hexChar (char : Char) : List Char :=
  [5, 4, 3, 2, 1, 0].map fun place => hexDigit (char.toNat / 16 ^ place % 16)

/-- The characters of a text in hexadecimal. -/
def hexText (text : String) : String := String.ofList (text.toList.flatMap hexChar)

/-- Different values have different hexadecimal digits. -/
theorem hexDigit_inj : ∀ value < 16, ∀ other < 16, hexDigit value = hexDigit other → value = other := by
  decide

/-- A number below a power of sixteen is given by its places. -/
private theorem eq_of_places {count : Nat} : ∀ {value other : Nat}, value < 16 ^ count →
    other < 16 ^ count →
    (∀ place < count, value / 16 ^ place % 16 = other / 16 ^ place % 16) → value = other := by
  induction count with
  | zero =>
      intro value other bound bound' _
      rw [Nat.pow_zero] at bound bound'
      omega
  | succ count ih =>
      intro value other bound bound' places
      have low : value % 16 = other % 16 := by simpa using places 0 (Nat.succ_pos count)
      have high : value / 16 = other / 16 := by
        rw [Nat.pow_succ] at bound bound'
        refine ih (by omega) (by omega) fun place below => ?_
        have next := places (place + 1) (Nat.succ_lt_succ below)
        rwa [Nat.pow_succ', ← Nat.div_div_eq_div_mul, ← Nat.div_div_eq_div_mul] at next
      omega

/-- Different bytes have different pairs of digits. -/
theorem hexChar_injective : Function.Injective hexChar := by
  intro char other same
  have listed : ∀ place < 6, place ∈ [5, 4, 3, 2, 1, 0] := by decide
  have bound : ∀ value : Char, value.toNat < 16 ^ 6 := by
    intro value
    have valid : value.toNat < 0xd800 ∨ 0xdfff < value.toNat ∧ value.toNat < 0x110000 := value.valid
    omega
  refine Char.toNat_inj.mp (eq_of_places (bound char) (bound other) fun place below => ?_)
  have digits := (List.map_inj_left.mp same) place (listed place below)
  exact hexDigit_inj _ (Nat.mod_lt _ (by decide)) _ (Nat.mod_lt _ (by decide)) digits

/-- Different bytes have different texts. -/
theorem hexText_injective : Function.Injective hexText := by
  intro text other same
  have flat := String.ofList_injective same
  rw [← String.toList_inj]
  generalize text.toList = chars at flat ⊢
  generalize other.toList = others at flat ⊢
  induction chars generalizing others with
  | nil =>
      cases others with
      | nil => rfl
      | cons other others => simp [hexChar] at flat
  | cons char chars ih =>
      cases others with
      | nil => simp [hexChar] at flat
      | cons other others =>
          obtain ⟨heads, tails⟩ := List.append_inj flat rfl
          rw [hexChar_injective heads, ih others tails]

/-- A text in hexadecimal holds no other characters. -/
theorem not_mem_hexText {char : Char} (other : ∀ value < 16, char ≠ hexDigit value) (text : String) :
    char ∉ (hexText text).toList := by
  intro member
  rw [hexText, String.toList_ofList, List.mem_flatMap] at member
  obtain ⟨source, _, member⟩ := member
  obtain ⟨place, _, digit⟩ := List.mem_map.mp member
  exact other _ (Nat.mod_lt _ (by decide)) digit.symm

end Hexadecimal
end Egregore.Base
