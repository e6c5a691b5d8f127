import Egregore.RedactionMeasure

/-!
# What the redactor leaves

A run of replacements is kept as a patchwork: each replacement covers whole parts of it, and what
was written is what the matchers report in the text as it is by then. The loop of
`redact_code_text` is such a run to its end. `redactCodeText_settles` says that it ends, that
nothing is found in what it leaves, and that the text between the replacements is kept in its
order.
-/

namespace Egregore.Redaction

open Base

section Runs

variable {placeholder value : List Char} {work : List (Patch Char)} {counts : SecretCounts}

/-- Replacements of what the matchers report, one after the other. -/
inductive RedactionRun (placeholder value : List Char) :
    List (Patch Char) → SecretCounts → Prop where
  | start : RedactionRun placeholder value (untouched value) fun _ => 0
  | replace {left middle right counts secretClass}
      (run : RedactionRun placeholder value (left ++ middle ++ right) counts)
      (reported : detectSecretSpan (rendered placeholder (left ++ middle ++ right)) =
        some (secretClass, byteLength (rendered placeholder left),
          byteLength (rendered placeholder middle))) :
      RedactionRun placeholder value (replaceMiddle left middle right) (counts.add secretClass)

/-- A run keeps all of the text that it does not replace. -/
theorem RedactionRun.original_eq (run : RedactionRun placeholder value work counts) :
    original work = value := by
  induction run with
  | start => exact original_untouched value
  | replace run reported ih => rw [original_replaceMiddle, ih]

theorem detectSecretSpan_eq_none {chars : List Char} :
    detectSecretSpan chars = none ↔ secretCut chars = none :=
  Option.map_eq_none_iff

/-- The loop ends where nothing is reported. -/
theorem redactLoop_of_none {chars : List Char} (clean : detectSecretSpan chars = none)
    (passed : List Char) (counts : SecretCounts) (rounds : Nat) :
    redactLoop placeholder (rounds + 1) passed chars counts = some (passed ++ chars, counts) := by
  rw [redactLoop, clean]

/-- One round of the loop. -/
theorem redactLoop_of_settling {chars : List Char} {secretClass : SecretClass} {cut : Cut}
    (found : secretCut chars = some (secretClass, cut))
    (settling : Settling placeholder chars cut) (counts : SecretCounts) (rounds : Nat) :
    redactLoop placeholder (rounds + 1) [] chars counts =
      redactLoop placeholder rounds [] (cut.before ++ placeholder ++ cut.after)
        (counts.add secretClass) := by
  have split : splitAtByte cut.start chars = some (cut.before, cut.inside ++ cut.after) := by
    rw [← settling.text, Cut.text, List.append_assoc]
    exact splitAtByte_append ..
  have splitInside : splitAtByte cut.len (cut.inside ++ cut.after) = some (cut.inside, cut.after) :=
    splitAtByte_append ..
  simp only [redactLoop, detectSecretSpan, found, Option.map_some, split, splitInside,
    if_neg settling.other]

/-- The loop takes a run to an end. -/
theorem RedactionRun.exists_end (isPlaceholder : IsPlaceholder placeholder)
    (run : RedactionRun placeholder value work counts) :
    ∃ work' counts' bound, RedactionRun placeholder value work' counts' ∧
      detectSecretSpan (rendered placeholder work') = none ∧
      ∀ rounds ≥ bound, redactLoop placeholder rounds [] (rendered placeholder work) counts =
        some (rendered placeholder work', counts') := by
  induction measure : restless placeholder (rendered placeholder work)
    using WellFoundedLT.induction generalizing work counts with
  | ind size ih =>
      cases found : secretCut (rendered placeholder work) with
      | none =>
          have clean := detectSecretSpan_eq_none.mpr found
          refine ⟨work, counts, 1, run, clean, fun rounds enough => ?_⟩
          obtain ⟨rounds, rfl⟩ := Nat.exists_eq_add_of_le' enough
          exact redactLoop_of_none clean [] counts rounds
      | some report =>
          obtain ⟨secretClass, cut⟩ := report
          have settling := settling_of_secretCut isPlaceholder found
          obtain ⟨left, middle, right, rfl, before, inside, after⟩ :=
            exists_middle settling.text.symm settling.start settling.end_
          have onward : rendered placeholder (replaceMiddle left middle right) =
              cut.before ++ placeholder ++ cut.after := by
            rw [rendered_replaceMiddle, before, after]
          have reported : detectSecretSpan (rendered placeholder (left ++ middle ++ right)) =
              some (secretClass, byteLength (rendered placeholder left),
                byteLength (rendered placeholder middle)) := by
            rw [detectSecretSpan, found, before, inside]
            rfl
          obtain ⟨work', counts', bound, runs, clean, loops⟩ :=
            ih _ (by rw [← measure, onward]; exact settling.less) (run.replace reported) rfl
          refine ⟨work', counts', bound + 1, runs, clean, fun rounds enough => ?_⟩
          obtain ⟨rounds, rfl⟩ := Nat.exists_eq_add_of_le' enough
          have rest := loops (rounds + bound) (Nat.le_add_left ..)
          rw [onward] at rest
          exact (redactLoop_of_settling found settling counts (rounds + bound)).trans rest

/-- The redactor ends, and it leaves nothing that a matcher reports. What it did is a run of
replacements, around which the text is as it was; a second pass does nothing. -/
theorem redactCodeText_settles (value : String) (placeholder : Placeholder) :
    ∃ work counts bound, RedactionRun placeholder.text.toList value.toList work counts ∧
      (∀ rounds ≥ bound, redactCodeText rounds value placeholder.text =
        some (String.ofList (rendered placeholder.text.toList work), counts)) ∧
      original work = value.toList ∧
      detectSecretSpan (rendered placeholder.text.toList work) = none ∧
      ∀ rounds > 0, redactCodeText rounds
        (String.ofList (rendered placeholder.text.toList work)) placeholder.text =
          some (String.ofList (rendered placeholder.text.toList work), fun _ => 0) := by
  obtain ⟨work, counts, bound, runs, clean, loops⟩ :=
    (RedactionRun.start : RedactionRun _ value.toList _ _).exists_end placeholder.isPlaceholder
  refine ⟨work, counts, bound, runs, fun rounds enough => ?_, runs.original_eq, clean,
    fun rounds positive => ?_⟩
  · have ended := loops rounds enough
    rw [rendered_untouched] at ended
    rw [redactCodeText, ended]
    rfl
  · obtain ⟨rounds, rfl⟩ := Nat.exists_eq_add_of_le' positive
    rw [redactCodeText, String.toList_ofList, redactLoop_of_none clean]
    rfl

-- The tail after a placeholder goes with the value that it was cut from.
example : (redactCodeText 3 "PASSWORD=sk-aaaaaaaaaaaaaaaaaaaaaa!tail x" redactedSecret).map
    Prod.fst = some "PASSWORD=<REDACTED:secret> x" := by
  decide +kernel

end Runs

end Egregore.Redaction
