import Egregore.RedactionSpans
import Mathlib.Data.Prod.Lex

/-!
# What each replacement makes less

A match with a mark takes it away. The value of an assignment need not have one, so the assignments
whose value is not yet the placeholder are counted too. Writing the placeholder into one of them
changes no value of an earlier assignment that is the placeholder already.
-/

namespace Egregore.Redaction

open Base

section Runs

variable {kind : Char → Bool} {lead more : List Char} {mark : Char}

/-- A run that does not reach a character of its kind ends before it. -/
theorem exists_end_of_not_mem_run (isKind : kind mark = true)
    (absent : mark ∉ run kind (lead ++ mark :: more)) : ∃ char ∈ lead, kind char = false := by
  by_contra noEnd
  push Not at noEnd
  have all : ∀ char ∈ lead, kind char = true := by simpa using noEnd
  rw [run, List.takeWhile_append_of_pos all, List.takeWhile_cons_of_pos isKind] at absent
  exact absent (by simp)

/-- A run that ends in a text does not see what comes after the text. -/
theorem run_append_of_end (ends : ∃ char ∈ lead, kind char = false) :
    run kind (lead ++ more) = run kind lead := by
  obtain ⟨char, member, notKind⟩ := ends
  induction lead with
  | nil => cases member
  | cons head tail ih =>
      simp only [run, List.cons_append, List.takeWhile_cons] at ih ⊢
      split
      · next headKind =>
          rcases List.mem_cons.mp member with rfl | later
          · rw [headKind] at notKind
            cases notKind
          · rw [ih later]
      · rfl

/-- A run of a whole text goes on to where another kind starts. -/
theorem run_append_of_all (all : ∀ char ∈ lead, kind char = true)
    (stopped : more.head?.all (!kind ·) = true) : run kind (lead ++ more) = lead := by
  rw [run, List.takeWhile_append_of_pos all]
  cases more with
  | nil => simp
  | cons head tail =>
      have notKind : ¬ kind head = true := by simpa using stopped
      rw [List.takeWhile_cons_of_neg notKind, List.append_nil]

end Runs

section Values

variable {placeholder remaining lead before more more' quote inside after : List Char} {cut : Cut}

/-- The quote at the start of a value. -/
def valueQuote : List Char → List Char
  | [] => []
  | first :: _ => if isQuote first then [first] else []

/-- What quotes a value are quotes. -/
theorem isQuote_of_mem_valueQuote {char : Char} (member : char ∈ valueQuote remaining) :
    isQuote char = true := by
  cases remaining with
  | nil => cases member
  | cons first rest =>
      rw [valueQuote] at member
      split at member
      · next quoted => rwa [List.mem_singleton.mp member]
      · cases member

/-- The characters that go on with a value. -/
def valueKind : List Char → Char → Bool
  | [] => (!isEnvDelim ·)
  | first :: rest => if isQuote first && rest.contains first then (· ≠ first) else (!isEnvDelim ·)

/-- The value is a run after its quote. -/
theorem envInside_eq (remaining : List Char) :
    envInside remaining = (valueQuote remaining,
      run (valueKind remaining) (remaining.drop (valueQuote remaining).length)) := by
  cases remaining with
  | nil => rfl
  | cons first rest =>
      by_cases quoted : isQuote first = true
      · have filtered : (first :: rest).head?.filter isQuote = some first := by
          simp [Option.filter, quoted]
        by_cases closed : first ∈ rest
        · have token : envToken (first :: rest) = first :: run (· ≠ first) rest ++ [first] := by
            simp [envToken, quoted, closed]
          have ended : 2 ≤ (envToken (first :: rest)).length ∧
              (envToken (first :: rest)).getLast? = some first := by
            rw [token]
            exact ⟨by simp, List.getLast?_concat⟩
          simp only [envInside, filtered, if_pos ended]
          simp [token, valueQuote, valueKind, quoted, closed]
        · have delimited : isEnvDelim first = false := by
            simp only [isQuote, Bool.or_eq_true, decide_eq_true_eq] at quoted
            rcases quoted with rfl | rfl <;> decide
          have token : envToken (first :: rest) = first :: run (!isEnvDelim ·) rest := by
            simp [envToken, closed, run, delimited]
          have open_ : ¬ (2 ≤ (envToken (first :: rest)).length ∧
              (envToken (first :: rest)).getLast? = some first) := by
            rintro ⟨two, last⟩
            rw [token] at two last
            have ne : run (!isEnvDelim ·) rest ≠ [] := fun none => by simp [none] at two
            rw [List.getLast?_cons_of_ne_nil ne] at last
            exact closed ((List.takeWhile_prefix _).subset (List.mem_of_getLast? last))
          simp only [envInside, filtered, if_neg open_]
          simp [token, valueQuote, valueKind, quoted, closed]
      · have filtered : (first :: rest).head?.filter isQuote = none := by
          simp [Option.filter, quoted]
        simp only [envInside, filtered]
        simp [envToken, valueQuote, valueKind, quoted]

/-- A character that ends a value is a stop. -/
theorem isStop_of_valueKind {char : Char} (ends : valueKind remaining char = false) :
    isStop char = true := by
  have delim : isEnvDelim char = true → isStop char = true := by
    simp only [isEnvDelim, Bool.or_eq_true, decide_eq_true_eq]
    rintro ((((rfl | rfl) | rfl) | rfl) | rfl) <;> decide
  cases remaining with
  | nil => exact delim (by simpa [valueKind] using ends)
  | cons first rest =>
      rw [valueKind] at ends
      split at ends
      · next closed =>
          obtain rfl : char = first := by simpa using ends
          simp only [isQuote, Bool.and_eq_true, Bool.or_eq_true, decide_eq_true_eq] at closed
          rcases closed.1 with rfl | rfl <;> decide
      · exact delim (by simpa using ends)

/-- No character of a placeholder ends a value. -/
theorem IsPlaceholder.valueKind (isPlaceholder : IsPlaceholder placeholder) {char : Char}
    (member : char ∈ placeholder) : valueKind remaining char = true := by
  by_contra ends
  have stop := isStop_of_valueKind (by simpa using ends)
  rw [isPlaceholder.noStop char member] at stop
  cases stop

/-- An equals sign does not end a value. -/
theorem valueKind_eq_sign : Redaction.valueKind remaining '=' = true := by
  by_contra ends
  have stop := isStop_of_valueKind (by simpa using ends)
  revert stop
  decide

/-- A placeholder is not empty. -/
theorem IsPlaceholder.ne_nil (isPlaceholder : IsPlaceholder placeholder) : placeholder ≠ [] := by
  rintro rfl
  cases isPlaceholder.head

/-- What ends a value depends on its first character, and on whether it comes again. -/
theorem valueKind_of_contains_eq {first : Char} {rest rest' : List Char}
    (same : first ∈ rest ↔ first ∈ rest') :
    valueKind (first :: rest) = valueKind (first :: rest') := by
  have contains : rest.contains first = rest'.contains first := by
    rw [Bool.eq_iff_iff, List.contains_iff_mem, List.contains_iff_mem, same]
  rw [valueKind, valueKind, contains]

/-- No quote is in a placeholder. -/
theorem IsPlaceholder.not_quote (isPlaceholder : IsPlaceholder placeholder) {char : Char}
    (quoted : isQuote char = true) : char ∉ placeholder := fun member => by
  have stop := isPlaceholder.noStop char member
  simp only [isQuote, Bool.or_eq_true, decide_eq_true_eq] at quoted
  rcases quoted with rfl | rfl <;> cases stop

/-- A text is the quote of a value, the value, and what is after it. -/
theorem envInside_split (remaining : List Char) :
    remaining = (envInside remaining).1 ++ ((envInside remaining).2 ++
      remaining.drop ((envInside remaining).1.length + (envInside remaining).2.length)) := by
  have quoted : valueQuote remaining <+: remaining := by
    cases remaining with
    | nil => exact List.nil_prefix
    | cons first rest =>
        rw [valueQuote]
        split <;> simp
  have value := List.prefix_append_drop (List.takeWhile_prefix (valueKind remaining)
    (l := remaining.drop (valueQuote remaining).length))
  rw [envInside_eq]
  dsimp only
  rw [← List.drop_drop, run, ← value]
  exact List.prefix_append_drop quoted

/-- After a value comes a stop, or nothing. -/
theorem envInside_stop (remaining : List Char) :
    (remaining.drop ((envInside remaining).1.length + (envInside remaining).2.length)).head?.all
      (!valueKind remaining ·) = true := by
  rw [envInside_eq, ← List.drop_drop]
  exact head_drop_run _ _

/-- A value that is replaced by the placeholder is the placeholder. -/
theorem envInside_replace (isPlaceholder : IsPlaceholder placeholder)
    (value : envInside (quote ++ (inside ++ after)) = (quote, inside))
    (stopped : after.head?.all (!valueKind (quote ++ (inside ++ after)) ·) = true)
    (ne : inside ≠ []) : envInside (quote ++ (placeholder ++ after)) = (quote, placeholder) := by
  rw [envInside_eq, Prod.mk.injEq] at value
  obtain ⟨quoteOf, valueOf⟩ := value
  suffices same : valueQuote (quote ++ (placeholder ++ after)) = quote ∧
      valueKind (quote ++ (placeholder ++ after)) = valueKind (quote ++ (inside ++ after)) by
    rw [envInside_eq, same.1, same.2, List.drop_left,
      run_append_of_all (fun char member => isPlaceholder.valueKind member) stopped]
  cases quote with
  | nil =>
      -- Neither the value nor the placeholder starts with a quote.
      obtain ⟨first, rest, rfl⟩ := List.exists_cons_of_ne_nil ne
      obtain ⟨head, tail, rfl⟩ := List.exists_cons_of_ne_nil isPlaceholder.ne_nil
      have bare : isQuote first = false := by
        by_contra quoted
        simp [valueQuote, quoted] at quoteOf
      have bareHead : isQuote head = false := by
        by_contra quoted
        exact isPlaceholder.not_quote (by simpa using quoted) List.mem_cons_self
      simp [valueQuote, valueKind, bare, bareHead]
  | cons first none =>
      obtain ⟨rfl, quoted⟩ : none = [] ∧ isQuote first = true := by
        rw [List.cons_append, valueQuote] at quoteOf
        split at quoteOf
        · next quoted => exact ⟨(List.cons.inj quoteOf).2.symm, quoted⟩
        · cases quoteOf
      refine ⟨by simp [valueQuote, quoted], (valueKind_of_contains_eq ?_).symm⟩
      change first ∈ inside ++ after ↔ first ∈ placeholder ++ after
      rw [List.mem_append, List.mem_append]
      constructor
      · rintro (inValue | inAfter)
        · -- A value that its quote closes does not hold the quote.
          exfalso
          rw [← valueOf] at inValue
          have kind := kind_of_mem_run inValue
          have member : first ∈ inside ++ after := by
            rw [valueOf] at inValue
            exact List.mem_append_left after inValue
          simp [valueKind, quoted, List.mem_append.mp member] at kind
        · exact Or.inr inAfter
      · rintro (inPlaceholder | inAfter)
        · exact absurd inPlaceholder (isPlaceholder.not_quote quoted)
        · exact Or.inr inAfter

/-- An earlier value that is the placeholder does not change. -/
theorem envInside_before (isPlaceholder : IsPlaceholder placeholder)
    (same : (envInside (lead ++ '=' :: more)).2 = placeholder)
    (within : ∀ char ∈ more', char ∈ more ∨ char ∈ placeholder) :
    (envInside (lead ++ '=' :: more')).2 = placeholder := by
  have unmarked : '=' ∉ placeholder := isPlaceholder.not_mark (by decide)
  rw [envInside_eq] at same ⊢
  dsimp only at same ⊢
  have absent : '=' ∉ run (valueKind (lead ++ '=' :: more))
      ((lead ++ '=' :: more).drop (valueQuote (lead ++ '=' :: more)).length) := same ▸ unmarked
  cases lead with
  | nil =>
      exfalso
      rw [List.nil_append, valueQuote, if_neg (by decide), List.length_nil, List.drop_zero, run,
        List.takeWhile_cons_of_pos valueKind_eq_sign] at absent
      exact absent List.mem_cons_self
  | cons first lead =>
      simp only [List.cons_append, valueQuote] at same absent ⊢
      by_cases quoted : isQuote first = true
      · simp only [quoted, if_true, List.length_singleton, List.drop_one, List.tail_cons]
          at same absent ⊢
        obtain ⟨char, inLead, ends⟩ := exists_end_of_not_mem_run valueKind_eq_sign absent
        have kinds : valueKind (first :: (lead ++ '=' :: more')) =
            valueKind (first :: (lead ++ '=' :: more)) := by
          apply valueKind_of_contains_eq
          constructor
          · intro member
            rcases List.mem_append.mp member with before | later
            · exact List.mem_append_left _ before
            rcases List.mem_cons.mp later with sign | inMore
            · exact List.mem_append_right _ (sign ▸ List.mem_cons_self)
            rcases within first inMore with known | inPlaceholder
            · exact List.mem_append_right _ (List.mem_cons_of_mem _ known)
            · exact absurd inPlaceholder (isPlaceholder.not_quote quoted)
          · -- The quote that closes the value is before the sign.
            intro member
            obtain rfl : char = first := by
              simpa [valueKind, quoted, -List.mem_append, -List.mem_cons, member] using ends
            exact List.mem_append_left _ inLead
        rw [kinds, run_append_of_end ⟨char, inLead, ends⟩]
        rwa [run_append_of_end ⟨char, inLead, ends⟩] at same
      · have bare : ∀ rest, valueKind (first :: rest) = (!isEnvDelim ·) := fun rest => by
          simp [valueKind, quoted]
        simp only [quoted, Bool.false_eq_true, if_false, List.length_nil, List.drop_zero, bare]
          at same absent ⊢
        rw [← List.cons_append] at same absent ⊢
        have ends := exists_end_of_not_mem_run (by decide) absent
        rw [run_append_of_end ends]
        rwa [run_append_of_end ends] at same

end Values

section Measure

variable {placeholder lead before more more' quote inside after chars : List Char}

/-- How many assignments have a value other than the placeholder. -/
def pending (placeholder : List Char) : List Char → Nat
  | [] => 0
  | char :: rest =>
      (if char = '=' ∧ (envInside rest).2 ≠ placeholder then 1 else 0) + pending placeholder rest

/-- The marks of a text, then its pending assignments. -/
def restless (placeholder chars : List Char) : Nat ×ₗ Nat :=
  toLex (chars.countP isMark, pending placeholder chars)

/-- Without an equals sign nothing is pending. -/
theorem pending_append_of_not_mem (absent : '=' ∉ lead) :
    pending placeholder (lead ++ more) = pending placeholder more := by
  induction lead with
  | nil => rfl
  | cons char lead ih =>
      rw [List.mem_cons, not_or] at absent
      rw [List.cons_append, pending, if_neg fun ⟨sign, _⟩ => absent.1 sign.symm, ih absent.2,
        Nat.zero_add]

/-- Once its value is the placeholder, an assignment is not pending any more. -/
theorem pending_lt (isPlaceholder : IsPlaceholder placeholder)
    (other : (envInside more).2 ≠ placeholder) (written : (envInside more').2 = placeholder)
    (within : ∀ char ∈ more', char ∈ more ∨ char ∈ placeholder)
    (rest : pending placeholder more' = pending placeholder more) :
    pending placeholder (lead ++ '=' :: more') < pending placeholder (lead ++ '=' :: more) := by
  induction lead with
  | nil =>
      rw [List.nil_append, List.nil_append, pending, pending, if_neg fun ⟨_, open_⟩ => open_ written,
        if_pos ⟨rfl, other⟩, rest]
      omega
  | cons char lead ih =>
      rw [List.cons_append, List.cons_append, pending, pending]
      by_cases earlier : char = '=' ∧ (envInside (lead ++ '=' :: more')).2 ≠ placeholder
      · have open_ : (envInside (lead ++ '=' :: more)).2 ≠ placeholder := fun same =>
          earlier.2 (envInside_before isPlaceholder same within)
        rw [if_pos earlier, if_pos ⟨earlier.1, open_⟩]
        omega
      · rw [if_neg earlier]
        omega

/-- A placeholder holds no mark. -/
theorem IsPlaceholder.countP_mark (isPlaceholder : IsPlaceholder placeholder) :
    placeholder.countP isMark = 0 :=
  List.countP_eq_zero.mpr fun char member => by simp [isPlaceholder.noMark char member]

/-- So replacing a span with a mark lowers the measure. -/
theorem restless_lt_of_marks (isPlaceholder : IsPlaceholder placeholder)
    (before after : List Char) (marked : ∃ mark ∈ inside, isMark mark = true) :
    restless placeholder (before ++ placeholder ++ after) <
      restless placeholder (before ++ inside ++ after) := by
  refine Prod.Lex.toLex_lt_toLex.mpr (Or.inl ?_)
  have some_ := List.countP_pos_iff.mpr marked
  rw [List.countP_append, List.countP_append, List.countP_append, List.countP_append,
    isPlaceholder.countP_mark]
  omega

/-- Writing the placeholder over the value of an assignment. -/
theorem restless_lt_of_value (isPlaceholder : IsPlaceholder placeholder)
    (value : envInside (quote ++ (inside ++ after)) = (quote, inside))
    (stopped : after.head?.all (!valueKind (quote ++ (inside ++ after)) ·) = true)
    (ne : inside ≠ []) (other : inside ≠ placeholder) :
    restless placeholder (lead ++ '=' :: (quote ++ (placeholder ++ after))) <
      restless placeholder (lead ++ '=' :: (quote ++ (inside ++ after))) := by
  by_cases marked : ∃ mark ∈ inside, isMark mark = true
  · have less := restless_lt_of_marks isPlaceholder (lead ++ '=' :: quote) after marked
    simpa using less
  · push Not at marked
    have noMark : inside.countP isMark = 0 := List.countP_eq_zero.mpr marked
    have unsigned : ∀ {text : List Char}, text.countP isMark = 0 → '=' ∉ text :=
      fun none member => List.countP_eq_zero.mp none '=' member (by decide)
    have bare : '=' ∉ quote := by
      intro member
      have quoteOf : valueQuote (quote ++ (inside ++ after)) = quote := by
        rw [envInside_eq] at value
        exact congrArg Prod.fst value
      rw [← quoteOf] at member
      exact absurd (isQuote_of_mem_valueQuote member) (by decide)
    have written := congrArg Prod.snd (envInside_replace isPlaceholder value stopped ne)
    refine Prod.Lex.toLex_lt_toLex.mpr (Or.inr ⟨?_, ?_⟩)
    · simp only [List.countP_append, List.countP_cons, noMark, isPlaceholder.countP_mark]
    · apply pending_lt isPlaceholder (by rwa [value]) written
      · intro char member
        simp only [List.mem_append] at member ⊢
        tauto
      · rw [pending_append_of_not_mem bare, pending_append_of_not_mem bare,
          pending_append_of_not_mem (unsigned isPlaceholder.countP_mark),
          pending_append_of_not_mem (unsigned noMark)]

end Measure

section Settling

variable {placeholder chars : List Char} {cut : Cut} {secretClass : SecretClass}

/-- What the loop knows of a match. -/
structure Settling (placeholder chars : List Char) (cut : Cut) : Prop where
  text : cut.text = chars
  start : ¬ Straddles placeholder cut.before (cut.inside ++ cut.after)
  end_ : ¬ Straddles placeholder (cut.before ++ cut.inside) cut.after
  other : cut.inside ≠ placeholder
  less : restless placeholder (cut.before ++ placeholder ++ cut.after) < restless placeholder chars

/-- So does replacing a clean span. -/
theorem Clean.settling (clean : Clean chars cut) (isPlaceholder : IsPlaceholder placeholder) :
    Settling placeholder chars cut := by
  obtain ⟨lead, mark, more, inside, marked, -⟩ := clean.anchored
  have member : mark ∈ cut.inside := by simp [inside]
  refine ⟨clean.text, not_straddles_of_anchored isPlaceholder clean.anchored,
    not_straddles_of_endsClean isPlaceholder clean.ends_, ?_, ?_⟩
  · rintro rfl
    exact isPlaceholder.not_mark marked member
  · rw [← clean.text]
    exact restless_lt_of_marks isPlaceholder cut.before cut.after ⟨mark, member, marked⟩

/-- A value behind an equals sign is quoted or bare, and no placeholder yet. -/
theorem of_envValueAt {before remaining : List Char}
    (accepted : envValueAt before ('=' :: remaining) = some cut) :
    ∃ quote inside after, envInside remaining = (quote, inside) ∧ inside ≠ [] ∧
      isExactPlaceholder inside = false ∧ cut = ⟨before ++ '=' :: quote, inside, after⟩ ∧
      after = remaining.drop (quote.length + inside.length) := by
  cases value : envInside remaining with
  | mk quote inside =>
      simp only [envValueAt, List.tail_cons, value] at accepted
      split at accepted
      · cases accepted
      split at accepted
      · cases accepted
      split at accepted
      · cases accepted
      split at accepted
      · cases accepted
      split at accepted
      · cases accepted
      next ne open_ =>
        exact ⟨quote, inside, _, rfl, ne, by simpa using open_, (Option.some.inj accepted).symm,
          rfl⟩

/-- The value of an assignment starts after its sign or its quote, and a stop comes after it. -/
theorem settling_envSecret (isPlaceholder : IsPlaceholder placeholder)
    (found : findEnvSecretSpan chars = some cut) : Settling placeholder chars cut := by
  obtain ⟨before, rest, rfl, starts, accepted⟩ := exists_of_findSome?_occurrences found
  obtain ⟨remaining, rfl⟩ := exists_of_startsWith starts
  change envValueAt before ('=' :: remaining) = some cut at accepted
  obtain ⟨quote, inside, after, value, ne, open_, rfl, dropped⟩ := of_envValueAt accepted
  have split := envInside_split remaining
  have stopped := envInside_stop remaining
  simp only [value, ← dropped] at split stopped
  have other : inside ≠ placeholder := by
    rintro rfl
    rw [isPlaceholder.isExact] at open_
    cases open_
  have quoted : ∀ char ∈ quote, isQuote char = true := by
    intro char member
    rw [envInside_eq] at value
    rw [← (Prod.mk.inj value).1] at member
    exact isQuote_of_mem_valueQuote member
  have whole : before ++ ("=".toList ++ remaining) =
      before ++ '=' :: (quote ++ (inside ++ after)) := by
    conv_lhs => rw [split]
    rfl
  refine ⟨?_, ?_, ?_, other, ?_⟩
  · rw [whole]
    simp [Cut.text]
  · rintro ⟨front, back, front_ne, -, isWhole, end_, -⟩
    have unmarked : '=' ∉ front := fun member =>
      isPlaceholder.not_mark (by decide) (isWhole ▸ List.mem_append_left back member)
    obtain ⟨head, tail, rfl⟩ := List.exists_cons_of_ne_nil front_ne
    have inQuote := (suffix_of_suffix_marked unmarked end_).subset List.mem_cons_self
    exact isPlaceholder.not_quote (quoted head inQuote) (by simp [isWhole])
  · apply not_straddles_of_stop isPlaceholder
    rw [Option.all_eq_true_iff_get] at stopped ⊢
    exact fun present => isStop_of_valueKind (by simpa using stopped present)
  · rw [whole]
    rw [split] at value stopped
    simpa using restless_lt_of_value isPlaceholder value stopped ne other

/-- Every reported match settles some of the text. -/
theorem settling_of_secretCut (isPlaceholder : IsPlaceholder placeholder)
    (found : secretCut chars = some (secretClass, cut)) : Settling placeholder chars cut := by
  obtain ⟨⟨ofClass, result⟩, member, reported⟩ := List.exists_of_findSome?_eq_some found
  obtain ⟨reportedCut, rfl, same⟩ := Option.map_eq_some_iff.mp reported
  obtain ⟨rfl, rfl⟩ := Prod.mk.inj same
  simp only [List.mem_cons, Prod.mk.injEq, List.not_mem_nil, or_false] at member
  rcases member with ⟨-, ssh⟩ | ⟨-, url⟩ | ⟨-, cloud⟩ | ⟨-, webhook⟩ | ⟨-, session⟩ | ⟨-, token⟩ |
    ⟨-, email⟩ | ⟨-, assignment⟩
  · exact (clean_sshPrivateKey ssh.symm).settling isPlaceholder
  · exact (clean_databaseUrl url.symm).settling isPlaceholder
  · exact (clean_cloudCredential cloud.symm).settling isPlaceholder
  · exact (clean_webhookSecret webhook.symm).settling isPlaceholder
  · exact (clean_sessionCookie session.symm).settling isPlaceholder
  · exact (clean_apiToken token.symm).settling isPlaceholder
  · exact (clean_email email.symm).settling isPlaceholder
  · exact settling_envSecret isPlaceholder assignment.symm

end Settling

end Egregore.Redaction
