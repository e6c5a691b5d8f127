import Egregore.Redaction

/-!
# Redaction markers

`redaction.rs`: the marker that takes the place of a value with a secret in it, and the parser of
the markers in a text.
-/

namespace Egregore.Redaction

open Base

/-- `HASH_PREFIX_LEN`. -/
def hashPrefixLen : Nat := 12

/-- What the parser looks for. -/
def markerPrefix : String := "<REDACTED:"

section Redact

/-- `blake3::Hash::to_hex`: two lowercase digits for each byte. -/
def toHex (hash : Vector UInt8 32) : List Char :=
  hash.toList.flatMap fun byte => [(byte.toNat / 16).digitChar, (byte.toNat % 16).digitChar]

/-- The marker of a class, with a hash prefix. -/
def markerText (secretClass : SecretClass) (hashPrefix : List Char) : List Char :=
  markerPrefix.toList ++ secretClass.asStr.toList ++ ':' :: hashPrefix ++ ['>']

/-- `redact_value`: the marker of the first secret in place of the whole value. -/
def redactValue (blake3 : String → Vector UInt8 32) (value : String) : String :=
  match detectSecret value with
  | none => value
  | some (secretClass, _) =>
      String.ofList (markerText secretClass ((toHex (blake3 value)).take hashPrefixLen))

end Redact

section Parse

def isLowerHex (char : Char) : Bool := char.isDigit || ('a' ≤ char && char ≤ 'f')

/-- The class and the hash prefix between the prefix of a marker and its end. -/
def parseMarker (inner : List Char) : Option (SecretClass × String) :=
  match splitOnce [':'] inner with
  | none => none
  | some (className, hashPrefix) =>
      match SecretClass.fromName (String.ofList className) with
      | none => none
      | some secretClass =>
          if byteLength hashPrefix = hashPrefixLen ∧ hashPrefix.all isLowerHex then
            some (secretClass, String.ofList hashPrefix)
          else none

/-- The loop of `parse_redaction_markers`: what is left to search. -/
def parseMarkers (rest : List Char) : List (SecretClass × String) :=
  match _found : splitOnce markerPrefix.toList rest with
  | none => []
  | some (_, body) =>
      match _ended : splitOnce ['>'] body with
      | none => []
      | some (inner, after) =>
          match parseMarker inner with
          | some marker => marker :: parseMarkers after
          | none => parseMarkers body
  termination_by rest.length
  decreasing_by
    · rw [of_splitOnce _found, of_splitOnce _ended]
      simp only [List.length_append, List.length_singleton]
      omega
    · rw [of_splitOnce _found]
      simp [markerPrefix]
      omega

/-- `parse_redaction_markers`. -/
def parseRedactionMarkers (value : String) : List (SecretClass × String) :=
  parseMarkers value.toList

end Parse

end Egregore.Redaction
