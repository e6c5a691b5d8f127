import Egregore.Base.Patchwork
import Egregore.Redaction
import Mathlib.Data.List.DropRight

/-!
# What the matchers cut out

Every match other than the value of an assignment holds a mark: a character that no placeholder has.
No match begins or ends inside a placeholder. The matchers are looked at one by one here; what comes
after knows of a cut only `Clean`.
-/

namespace Egregore.Redaction

open Base

section Kinds

/-- The characters that anchor a match. No placeholder has one. -/
def isMark (char : Char) : Bool :=
  char = '-' || char = '/' || char = 'I' || char = '_' || char = 'J' || char = '=' || char = ' ' ||
    char = '@'

/-- The characters that end a match that takes everything else. No placeholder has one. -/
def isStop (char : Char) : Bool :=
  isWhitespace char || char = '"' || char = '\'' || char = '\\' || char = ',' || char = ';'

/-- The characters at the ends of a placeholder. -/
def isEdge (char : Char) : Bool := char = '<' || char = '>' || char = '«' || char = '»'

/-- What the loop needs of a placeholder. -/
structure IsPlaceholder (placeholder : List Char) : Prop where
  noMark : ∀ char ∈ placeholder, isMark char = false
  noStop : ∀ char ∈ placeholder, isStop char = false
  head : placeholder.head?.any isEdge = true
  last : placeholder.getLast?.any isEdge = true
  isExact : isExactPlaceholder placeholder = true

/-- The placeholders that the callers use. -/
inductive Placeholder where
  | marker | redactedSecret
  deriving DecidableEq, Repr

def Placeholder.text : Placeholder → String
  | marker => redactionMarker
  | redactedSecret => Redaction.redactedSecret

/-- The placeholders of the source have the shape that the proofs need. -/
theorem Placeholder.isPlaceholder (placeholder : Placeholder) :
    IsPlaceholder placeholder.text.toList := by
  cases placeholder with
  | marker => exact ⟨by decide, by decide, by decide, by decide, by decide⟩
  | redactedSecret => exact ⟨by decide, by decide, by decide, by decide, by decide⟩

end Kinds

section Clean

/-- A match that has a mark after characters that are no edges. -/
def Anchored (inside : List Char) : Prop :=
  ∃ lead mark more, inside = lead ++ mark :: more ∧ isMark mark = true ∧
    ∀ char ∈ lead, isEdge char = false

/-- A match after which a stop comes or nothing, or which has no edge after its last mark. -/
def EndsClean (inside after : List Char) : Prop :=
  after.head?.all isStop = true ∨
    ∃ lead mark more, inside = lead ++ mark :: more ∧ isMark mark = true ∧
      ∀ char ∈ more, isEdge char = false

/-- A match of a matcher other than that of assignments. -/
structure Clean (chars : List Char) (cut : Cut) : Prop where
  text : cut.text = chars
  anchored : Anchored cut.inside
  ends_ : EndsClean cut.inside cut.after

end Clean

section Words

variable {chars before rest word more : List Char} {cut : Cut} {count : Nat}

/-- A text that starts with a word goes on behind it. -/
theorem exists_of_startsWith {word : String} (starts : startsWith word rest = true) :
    ∃ more, rest = word.toList ++ more :=
  (List.isPrefixOf_iff_prefix.mp starts).imp fun _ => Eq.symm

/-- So does one that starts with it in another case. -/
theorem exists_of_startsWithLower {word : String} (starts : startsWithLower word rest = true) :
    ∃ folded more, rest = folded ++ more ∧ folded.map Char.toLower = word.toList := by
  obtain ⟨lower, split⟩ := List.isPrefixOf_iff_prefix.mp starts
  obtain ⟨folded, more, rfl, same, -⟩ := List.map_eq_append_iff.mp split.symm
  exact ⟨folded, more, rfl, same⟩

/-- A run is what its own length takes. -/
theorem take_run (kind : Char → Bool) (rest : List Char) :
    rest.take (run kind rest).length = run kind rest :=
  calc
    rest.take (run kind rest).length
      = (run kind rest ++ rest.dropWhile kind).take (run kind rest).length := by
        rw [run, List.takeWhile_append_dropWhile]
    _ = run kind rest := List.take_left

/-- What it drops is the text behind. -/
theorem drop_run (kind : Char → Bool) (rest : List Char) :
    rest.drop (run kind rest).length = rest.dropWhile kind :=
  calc
    rest.drop (run kind rest).length
      = (run kind rest ++ rest.dropWhile kind).drop (run kind rest).length := by
        rw [run, List.takeWhile_append_dropWhile]
    _ = rest.dropWhile kind := List.drop_left

/-- A run is of its kind. -/
theorem kind_of_mem_run {kind : Char → Bool} {char : Char} (member : char ∈ run kind rest) :
    kind char = true :=
  List.mem_takeWhile_imp member

/-- After a run comes a character of another kind, or nothing. -/
theorem head_drop_run (kind : Char → Bool) (rest : List Char) :
    (rest.drop (run kind rest).length).head?.all (!kind ·) = true := by
  rw [drop_run]
  cases left : rest.dropWhile kind with
  | nil => rfl
  | cons head tail =>
      have ended := List.head_dropWhile_not kind (l := rest) (by simp [left])
      simpa [left] using ended

/-- A cut loses nothing. -/
@[simp] theorem text_cutAt : (cutAt before rest count).text = before ++ rest := by
  simp [Cut.text, cutAt]

/-- A cut behind a word is a cut in what follows it. -/
theorem cutAt_append (before word more : List Char) (count : Nat) :
    cutAt before (word ++ more) (word.length + count) =
      ⟨before, word ++ more.take count, more.drop count⟩ := by
  simp [cutAt, List.take_append, List.drop_append, List.take_of_length_le,
    List.drop_of_length_le]

/-- A word that has a mark and no edges. -/
def IsAnchor (word : List Char) : Prop := word.any isMark = true ∧ word.all (!isEdge ·) = true

instance : Decidable (IsAnchor word) := inferInstanceAs (Decidable (_ ∧ _))

/-- A text that starts with an anchor is anchored. -/
theorem IsAnchor.anchored (anchor : IsAnchor word) (more : List Char) :
    Anchored (word ++ more) := by
  obtain ⟨marked, noEdges⟩ := anchor
  obtain ⟨mark, member, isMark⟩ := List.any_eq_true.mp marked
  obtain ⟨lead, trail, rfl⟩ := List.append_of_mem member
  refine ⟨lead, mark, trail ++ more, by simp, isMark, fun char inLead => ?_⟩
  simpa using List.all_eq_true.mp noEdges char (List.mem_append_left _ inLead)

/-- An anchor ends clean while no edge follows inside. -/
theorem IsAnchor.endsClean (anchor : IsAnchor word) (after : List Char)
    (noEdges : ∀ char ∈ more, isEdge char = false) : EndsClean (word ++ more) after := by
  obtain ⟨marked, wordEdges⟩ := anchor
  obtain ⟨mark, member, isMark⟩ := List.any_eq_true.mp marked
  obtain ⟨lead, trail, rfl⟩ := List.append_of_mem member
  refine Or.inr ⟨lead, mark, trail ++ more, by simp, isMark, fun char member => ?_⟩
  rcases List.mem_append.mp member with inWord | inMore
  · simpa using List.all_eq_true.mp wordEdges char (by simp [inWord])
  · exact noEdges char inMore

/-- A match that a word starts, and which ends before a stop. -/
theorem IsAnchor.clean_stop (anchor : IsAnchor word)
    (stopped : (more.drop count).head?.all isStop = true) :
    Clean (before ++ (word ++ more)) (cutAt before (word ++ more) (word.length + count)) := by
  refine ⟨by simp, ?_, ?_⟩
  · rw [cutAt_append]
    exact anchor.anchored _
  · rw [cutAt_append]
    exact Or.inl stopped

/-- A match that a word starts, and which has no edges. -/
theorem IsAnchor.clean_plain (anchor : IsAnchor word)
    (noEdges : ∀ char ∈ more.take count, isEdge char = false) :
    Clean (before ++ (word ++ more)) (cutAt before (word ++ more) (word.length + count)) := by
  refine ⟨by simp, ?_, ?_⟩
  · rw [cutAt_append]
    exact anchor.anchored _
  · rw [cutAt_append]
    exact anchor.endsClean _ noEdges

end Words

section Matchers

variable {chars : List Char} {cut : Cut}

/-- A character of a kind that no edge is of. -/
theorem isEdge_eq_false {kind : Char → Bool} {char : Char}
    (edges : (['<', '>', '«', '»'].all fun edge => !kind edge) = true)
    (isKind : kind char = true) : isEdge char = false := by
  by_contra edge
  simp only [isEdge, Bool.not_eq_false, Bool.or_eq_true, decide_eq_true_eq] at edge
  have member : char ∈ ['<', '>', '«', '»'] := by
    simp only [List.mem_cons, List.not_mem_nil]
    tauto
  have notKind := List.all_eq_true.mp edges char member
  rw [isKind] at notKind
  cases notKind

/-- What is after a run that stops end. -/
theorem stop_after_run {isEnd : Char → Bool} (stops : ∀ char, isEnd char = true → isStop char = true)
    (more : List Char) : (more.drop (run (!isEnd ·) more).length).head?.all isStop = true := by
  have ended := head_drop_run (!isEnd ·) more
  rw [Option.all_eq_true_iff_get] at ended ⊢
  intro present
  exact stops _ (by simpa using ended present)

/-- The drop of a word that a text starts with. -/
@[simp] theorem drop_length_append (word : String) (more : List Char) :
    (word.toList ++ more).drop word.length = more := by
  rw [← String.length_toList]
  exact List.drop_left

/-- An edge is one in lower case. -/
theorem isEdge_toLower {char : Char} (edge : isEdge char = true) :
    isEdge char.toLower = true := by
  simp only [isEdge, Bool.or_eq_true, decide_eq_true_eq] at edge
  rcases edge with ((rfl | rfl) | rfl) | rfl <;> decide

/-- So is the end of a URL. -/
theorem isUrlEnd_toLower {char : Char} (ends : isUrlEnd char = true) :
    isUrlEnd char.toLower = true := by
  rw [toLower_eq_self]
  · exact ends
  · simp only [isUrlEnd, isWhitespace, Bool.or_eq_true, Bool.and_eq_true, decide_eq_true_eq,
      beq_iff_eq] at ends
    rcases ends with ((((ends | rfl) | rfl) | rfl) | rfl) | rfl
    · rw [← Bool.not_eq_true, isUpper_iff]
      omega
    all_goals decide

/-- A word in any case is an anchor if its mark is no letter. -/
theorem isAnchor_of_folded {folded word : List Char} (same : folded.map Char.toLower = word)
    (anchor : word.any (fun char => isMark char && !char.isLower) = true)
    (noEdges : word.all (!isEdge ·) = true) : IsAnchor folded := by
  subst same
  constructor
  · obtain ⟨lower, member, marked⟩ := List.any_eq_true.mp anchor
    obtain ⟨char, inFolded, rfl⟩ := List.mem_map.mp member
    rw [Bool.and_eq_true, Bool.not_eq_true'] at marked
    refine List.any_eq_true.mpr ⟨char, inFolded, ?_⟩
    rw [eq_of_toLower_eq rfl marked.2]
    exact marked.1
  · refine List.all_eq_true.mpr fun char inFolded => ?_
    have lower := List.all_eq_true.mp noEdges _ (List.mem_map_of_mem inFolded)
    by_contra edge
    rw [isEdge_toLower (by simpa using edge)] at lower
    cases lower

/-- Only the end of a span matters for whether it ends clean. -/
theorem EndsClean.append_left {inside after : List Char} (clean : EndsClean inside after)
    (lead : List Char) : EndsClean (lead ++ inside) after := by
  refine clean.imp_right ?_
  rintro ⟨front, mark, more, rfl, marked, noEdges⟩
  exact ⟨lead ++ front, mark, more, by simp, marked, noEdges⟩

/-- The private key starts with a mark and ends with one, or with the text. -/
theorem clean_sshPrivateKey (found : findSshPrivateKeySpan chars = some cut) :
    Clean chars cut := by
  obtain ⟨⟨marker, endMarker⟩, member, place⟩ := List.exists_of_findSome?_eq_some found
  obtain ⟨⟨before, rest⟩, first, rfl⟩ := Option.map_eq_some_iff.mp place
  obtain ⟨rfl, starts⟩ := of_mem_occurrences (List.mem_of_head? first)
  obtain ⟨more, rfl⟩ := exists_of_startsWith starts
  have dashes : ∀ markers ∈ sshMarkers.zip sshEndMarkers,
      markers.1.toList.head? = some '-' ∧ IsAnchor markers.2.toList ∧ 0 < markers.2.length := by
    decide
  obtain ⟨dash, endAnchor, endLength⟩ := dashes _ member
  simp only at dash endAnchor endLength
  obtain ⟨trail, whole⟩ : ∃ trail, marker.toList ++ more = '-' :: trail := by
    obtain ⟨trail, dashed⟩ := List.head?_eq_some_iff.mp dash
    exact ⟨trail ++ more, by rw [dashed, List.cons_append]⟩
  dsimp only
  split
  · next body tail ending =>
      obtain ⟨split, ends⟩ := of_mem_occurrences (List.mem_of_head? ending)
      obtain ⟨after, rfl⟩ := exists_of_startsWith ends
      have inside : (marker.toList ++ more).take (body.length + endMarker.length) =
          body ++ endMarker.toList := by
        rw [split, ← String.length_toList, ← List.length_append, ← List.append_assoc]
        exact List.take_left
      refine ⟨by simp, ?_, ?_⟩
      · obtain ⟨last, later⟩ : ∃ last, body.length + endMarker.length = last + 1 :=
          ⟨body.length + endMarker.length - 1, by omega⟩
        rw [cutAt, later, whole]
        exact ⟨[], '-', trail.take last, rfl, by decide, by simp⟩
      · rw [cutAt, inside]
        have ended : EndsClean (endMarker.toList ++ [])
            ((marker.toList ++ more).drop (body.length + endMarker.length)) :=
          endAnchor.endsClean _ (by simp)
        rw [List.append_nil] at ended
        exact ended.append_left body
  · rw [whole]
    exact ⟨by simp [Cut.text], ⟨[], '-', trail, rfl, by decide, by simp⟩, Or.inl rfl⟩

/-- The URL has the slashes of its scheme, and a stop after it. -/
theorem clean_databaseUrl (found : findDatabaseUrlSpan chars = some cut) : Clean chars cut := by
  obtain ⟨scheme, member, search⟩ := List.exists_of_findSome?_eq_some found
  obtain ⟨before, rest, rfl, starts, accepted⟩ := exists_of_findSome?_occurrences search
  obtain ⟨folded, more, rfl, same⟩ := exists_of_startsWithLower starts
  have schemes : ∀ scheme ∈ databaseSchemes,
      (scheme.toList.any fun char => isMark char && !char.isLower) = true ∧
        scheme.toList.all (!isEdge ·) = true ∧ scheme.toList.all (!isUrlEnd ·) = true := by
    decide
  obtain ⟨marked, noEdges, noEnds⟩ := schemes _ member
  have anchor := isAnchor_of_folded same marked noEdges
  have within : ∀ char ∈ folded, (!isUrlEnd char) = true := by
    intro char inFolded
    rw [← same] at noEnds
    have lower := List.all_eq_true.mp noEnds _ (List.mem_map_of_mem inFolded)
    by_contra ends
    rw [isUrlEnd_toLower (by simpa using ends)] at lower
    cases lower
  have length : (run (!isUrlEnd ·) (folded ++ more)).length =
      folded.length + (run (!isUrlEnd ·) more).length := by
    rw [run, List.takeWhile_append_of_pos within, List.length_append, run]
  dsimp only at accepted
  split at accepted
  · cases accepted
    rw [length]
    exact anchor.clean_stop (stop_after_run (fun _ ends => ends) more)
  · cases accepted

/-- The key has its prefix, and only letters and digits. -/
theorem clean_cloudCredential (found : findCloudCredentialSpan chars = some cut) :
    Clean chars cut := by
  obtain ⟨keyPrefix, member, search⟩ := List.exists_of_findSome?_eq_some found
  obtain ⟨before, rest, rfl, starts, accepted⟩ := exists_of_findSome?_occurrences search
  obtain ⟨more, rfl⟩ := exists_of_startsWith starts
  have anchors : ∀ keyPrefix ∈ ["AKIA", "ASIA"],
      IsAnchor keyPrefix.toList ∧ keyPrefix.toList.length = 4 := by decide
  obtain ⟨anchor, four⟩ := anchors _ member
  dsimp only at accepted
  split at accepted
  · next credential =>
      cases accepted
      have count : 20 = keyPrefix.toList.length + 16 := by omega
      rw [count]
      apply anchor.clean_plain
      intro char inKey
      rw [isCloudCredential, ← four, List.drop_left] at credential
      simp only [Bool.and_eq_true] at credential
      have key := List.all_eq_true.mp credential.1.1.2 char inKey
      exact @isEdge_eq_false (fun char => char.isUpper || char.isDigit) char (by decide) key
  · cases accepted

/-- The secret has its prefix, and only characters of tokens. -/
theorem clean_webhookSecret (found : findWebhookSecretSpan chars = some cut) :
    Clean chars cut := by
  obtain ⟨before, rest, rfl, starts, accepted⟩ := exists_of_findSome?_occurrences found
  obtain ⟨more, rfl⟩ := exists_of_startsWith starts
  have anchor : IsAnchor "whsec_".toList := by decide
  dsimp only at accepted
  split at accepted
  · cases accepted
    apply anchor.clean_plain
    intro char inRun
    rw [show ("whsec_".toList ++ more).drop 6 = more from rfl, take_run] at inRun
    refine isEdge_eq_false ?_ (kind_of_mem_run inRun)
    decide
  · cases accepted

/-- The cookie is a token, or has the equals sign of its name and a stop after it. -/
theorem clean_sessionCookie (found : findSessionCookieSpan chars = some cut) :
    Clean chars cut := by
  rcases Option.or_eq_some_iff.mp found with token | ⟨-, named⟩
  · obtain ⟨before, rest, rfl, starts, accepted⟩ := exists_of_findSome?_occurrences token
    obtain ⟨more, rfl⟩ := exists_of_startsWith starts
    have anchor : IsAnchor "eyJ".toList := by decide
    dsimp only at accepted
    split at accepted
    · cases accepted
      apply anchor.clean_plain
      intro char inRun
      rw [show ("eyJ".toList ++ more).drop 3 = more from rfl, take_run] at inRun
      refine isEdge_eq_false ?_ (kind_of_mem_run inRun)
      decide
    · cases accepted
  · obtain ⟨sessionPrefix, member, search⟩ := List.exists_of_findSome?_eq_some named
    obtain ⟨before, rest, rfl, starts, accepted⟩ := exists_of_findSome?_occurrences search
    obtain ⟨more, rfl⟩ := exists_of_startsWith starts
    have anchors : ∀ sessionPrefix ∈ sessionPrefixes, IsAnchor sessionPrefix.toList := by decide
    dsimp only at accepted
    split at accepted
    · cases accepted
      rw [drop_length_append, ← String.length_toList]
      apply (anchors _ member).clean_stop
      apply stop_after_run
      intro char ends
      simp only [isStop, Bool.or_eq_true] at ends ⊢
      tauto
    · cases accepted

/-- The token has its prefix, or the blank after `bearer` and a stop after it. -/
theorem clean_apiToken (found : findApiTokenSpan chars = some cut) : Clean chars cut := by
  rcases Option.or_eq_some_iff.mp found with prefixed | ⟨-, bearer⟩
  · obtain ⟨tokenPrefix, member, search⟩ := List.exists_of_findSome?_eq_some prefixed
    obtain ⟨before, rest, rfl, starts, accepted⟩ := exists_of_findSome?_occurrences search
    obtain ⟨more, rfl⟩ := exists_of_startsWith starts
    have anchors : ∀ tokenPrefix ∈ apiTokenPrefixes, IsAnchor tokenPrefix.toList := by decide
    dsimp only at accepted
    split at accepted
    · cases accepted
      rw [drop_length_append, ← String.length_toList]
      apply (anchors _ member).clean_plain
      intro char inRun
      rw [take_run] at inRun
      refine isEdge_eq_false ?_ (kind_of_mem_run inRun)
      decide
    · cases accepted
  · obtain ⟨before, rest, rfl, starts, accepted⟩ := exists_of_findSome?_occurrences bearer
    obtain ⟨folded, more, rfl, same⟩ := exists_of_startsWithLower starts
    have anchor := isAnchor_of_folded same (by decide) (by decide)
    have seven : folded.length = 7 := by simpa using congrArg List.length same
    dsimp only at accepted
    split at accepted
    · cases accepted
      rw [← seven, List.drop_left]
      apply anchor.clean_stop
      apply stop_after_run
      intro char ends
      simp only [isStop, Bool.or_eq_true] at ends ⊢
      tauto
    · cases accepted

/-- What is before the characters of a kind at the end of a text. -/
theorem outside_append (kind : Char → Bool) (before : List Char) :
    before.take (before.length - (run kind before.reverse).reverse.length) ++
      (run kind before.reverse).reverse = before := by
  obtain ⟨outside, split⟩ := List.rtakeWhile_suffix kind before
  change outside ++ (run kind before.reverse).reverse = before at split
  have length : before.length - (run kind before.reverse).reverse.length = outside.length := by
    have sizes := congrArg List.length split
    rw [List.length_append] at sizes
    omega
  have taken : before.take outside.length = outside := by
    conv_lhs => rw [← split]
    exact List.take_left
  rw [length, taken, split]

/-- The address has its `@`, between characters of users and of domains. -/
theorem clean_email (found : findEmailSpan chars = some cut) : Clean chars cut := by
  obtain ⟨before, rest, rfl, starts, accepted⟩ := exists_of_findSome?_occurrences found
  obtain ⟨more, rfl⟩ := exists_of_startsWith starts
  change emailAt before ('@' :: more) = some cut at accepted
  rw [emailAt] at accepted
  split at accepted
  · cases accepted
  split at accepted
  · cases accepted
  split at accepted
  · cases accepted
  split at accepted
  · cases accepted
    have domain : ((run isDomainChar more).reverse.dropWhile fun char => char = '.' || char = '-'
        ).reverse <+: run isDomainChar more :=
      List.rdropWhile_prefix _ _
    refine ⟨?_, ?_, ?_⟩
    · have rest := List.prefix_append_drop (domain.trans (List.takeWhile_prefix _))
      have whole := outside_append isUserChar before
      simp only [Cut.text, List.append_assoc, List.cons_append]
      rw [List.tail_cons, ← rest, ← List.append_assoc, whole]
      rfl
    · refine ⟨_, '@', _, rfl, by decide, fun char inUser => ?_⟩
      refine isEdge_eq_false ?_ (kind_of_mem_run (List.mem_reverse.mp inUser))
      decide
    · refine Or.inr ⟨_, '@', _, rfl, by decide, fun char inDomain => ?_⟩
      refine isEdge_eq_false ?_ (kind_of_mem_run (domain.subset inDomain))
      decide
  · cases accepted

end Matchers

section Alignment

variable {placeholder chars lead more rest : List Char} {mark : Char} {cut : Cut}

/-- A placeholder holds no mark. -/
theorem IsPlaceholder.not_mark (isPlaceholder : IsPlaceholder placeholder)
    (marked : isMark mark = true) : mark ∉ placeholder := fun member => by
  rw [isPlaceholder.noMark mark member] at marked
  cases marked

/-- Each front part of a placeholder has an edge. -/
theorem IsPlaceholder.edge_head (isPlaceholder : IsPlaceholder placeholder) {front back : List Char}
    (whole : placeholder = front ++ back) (front_ne : front ≠ []) :
    ∃ char ∈ front, isEdge char = true := by
  obtain ⟨head, tail, rfl⟩ := List.exists_cons_of_ne_nil front_ne
  exact ⟨head, List.mem_cons_self, by simpa [whole] using isPlaceholder.head⟩

/-- So does each back part. -/
theorem IsPlaceholder.edge_last (isPlaceholder : IsPlaceholder placeholder) {front back : List Char}
    (whole : placeholder = front ++ back) (back_ne : back ≠ []) :
    ∃ char ∈ back, isEdge char = true := by
  refine ⟨back.getLast back_ne, List.getLast_mem back_ne, ?_⟩
  have last := isPlaceholder.last
  rw [whole, List.getLast?_append_of_ne_nil front back_ne, List.getLast?_eq_some_getLast back_ne]
    at last
  simpa using last

/-- No match begins inside a placeholder. -/
theorem not_straddles_of_anchored (isPlaceholder : IsPlaceholder placeholder)
    (anchored : Anchored cut.inside) :
    ¬ Straddles placeholder cut.before (cut.inside ++ cut.after) := by
  rintro ⟨front, back, -, back_ne, whole, -, start⟩
  obtain ⟨lead, mark, more, inside, marked, noEdges⟩ := anchored
  have unmarked : mark ∉ back := fun member =>
    isPlaceholder.not_mark marked (whole ▸ List.mem_append_right front member)
  rw [inside, List.append_assoc, List.cons_append] at start
  obtain ⟨char, member, edge⟩ := isPlaceholder.edge_last whole back_ne
  have clear := noEdges char ((prefix_of_prefix_marked unmarked start).subset member)
  rw [clear] at edge
  cases edge

/-- A placeholder does not go on at a stop. -/
theorem not_straddles_of_stop (isPlaceholder : IsPlaceholder placeholder) {before : List Char}
    (stopped : rest.head?.all isStop = true) : ¬ Straddles placeholder before rest := by
  rintro ⟨front, back, -, back_ne, whole, -, start⟩
  obtain ⟨head, tail, rfl⟩ := List.exists_cons_of_ne_nil back_ne
  obtain ⟨left, rfl⟩ := start
  have stop : isStop head = true := by simpa using stopped
  rw [isPlaceholder.noStop head (by simp [whole])] at stop
  cases stop

/-- No match ends inside a placeholder. -/
theorem not_straddles_of_endsClean (isPlaceholder : IsPlaceholder placeholder)
    (clean : EndsClean cut.inside cut.after) :
    ¬ Straddles placeholder (cut.before ++ cut.inside) cut.after := by
  rcases clean with stopped | ⟨lead, mark, more, inside, marked, noEdges⟩
  · exact not_straddles_of_stop isPlaceholder stopped
  · rintro ⟨front, back, front_ne, -, whole, end_, -⟩
    have unmarked : mark ∉ front := fun member =>
      isPlaceholder.not_mark marked (whole ▸ List.mem_append_left back member)
    rw [inside, ← List.append_assoc] at end_
    obtain ⟨char, member, edge⟩ := isPlaceholder.edge_head whole front_ne
    have clear := noEdges char ((suffix_of_suffix_marked unmarked end_).subset member)
    rw [clear] at edge
    cases edge

end Alignment

end Egregore.Redaction
