import Egregore.LogScanSpec
import Egregore.RedactionSpec
import Mathlib.Data.List.SplitBy

/-!
# Events of a log

The events of a plain log are the runs of its lines, each up to the next line that continues none.
Of the occurrences of a signature a few are kept as events of their own. `plainEntries_runs` shows
that there is no other such cut, `scanLogRecords_exemplars` which occurrences are kept, and
`redactedSourceBytes_clean` that redacting the source moves no newline.
-/

namespace Egregore.LogGraph

open Base Redaction UtcDateTime

/-! ## Plain events -/

section Plain

/-- The runs of lines that continue the line before. -/
def eventLines (text : String) : List (List String) :=
  (lines text).splitBy fun _ line => isContinuationLine line.toList

/-- The events of runs of lines, by the number of the first line. -/
def eventsFrom : Nat → List (List String) → List PlainEvent
  | _, [] => []
  | start, run :: runs =>
      ⟨start, run.headD "", "\n".intercalate run⟩ :: eventsFrom (start + run.length) runs

/-- Lines that continue an event are added to its text. -/
theorem foldl_pushLine_continued {tail : List String}
    (continued : ∀ line ∈ tail, isContinuationLine line.toList = true)
    (events : List PlainEvent) (start : Nat) (header text : String) (number : Nat) :
    (tail.zipIdx number).foldl pushLine (events ++ [⟨start, header, text⟩]) =
      events ++ [⟨start, header, tail.foldl (fun text line => text ++ "\n" ++ line) text⟩] := by
  induction tail generalizing text number with
  | nil => rfl
  | cons line tail ih =>
      have pushed : pushLine (events ++ [⟨start, header, text⟩]) (line, number) =
          events ++ [⟨start, header, text ++ "\n" ++ line⟩] := by
        have continues := continued line List.mem_cons_self
        rw [pushLine, if_pos (by simp [continues]), List.modifyLast_concat]
      rw [List.zipIdx_cons, List.foldl_cons, pushed]
      exact ih (fun later member => continued later (List.mem_cons_of_mem line member)) _ _

/-- A line that continues none starts an event, and so does the first. -/
theorem pushLine_start {events : List PlainEvent} {line : String}
    (starts : events ≠ [] → isContinuationLine line.toList = false) (number : Nat) :
    pushLine events (line, number) = events ++ [⟨number, line, line⟩] := by
  rw [pushLine, if_neg]
  rw [Bool.and_eq_true, not_and, Bool.not_eq_true]
  intro some
  exact starts (by simpa using some)

theorem foldl_intercalate (line : String) (tail : List String) :
    tail.foldl (fun text line => text ++ "\n" ++ line) line = "\n".intercalate (line :: tail) := by
  rw [String.intercalate]
  induction tail generalizing line with
  | nil => rfl
  | cons next tail ih => exact ih (line ++ "\n" ++ next)

/-- The loop over the lines of some runs adds an event for each. -/
theorem foldl_pushLine_runs {runs : List (List String)} (nonempty : [] ∉ runs)
    (continued : ∀ run ∈ runs, ∀ line ∈ run.tail, isContinuationLine line.toList = true)
    (starts : ∀ run ∈ runs.tail, ∀ line ∈ run.head?, isContinuationLine line.toList = false)
    {events : List PlainEvent} (first : events ≠ [] → ∀ run ∈ runs.head?, ∀ line ∈ run.head?,
      isContinuationLine line.toList = false) (number : Nat) :
    (runs.flatten.zipIdx number).foldl pushLine events = events ++ eventsFrom number runs := by
  induction runs generalizing events number with
  | nil => simp [eventsFrom]
  | cons run runs ih =>
      cases run with
      | nil => exact absurd List.mem_cons_self nonempty
      | cons line tail =>
          have started : pushLine events (line, number) = events ++ [⟨number, line, line⟩] :=
            pushLine_start (fun some => first some _ rfl line rfl) number
          have goesOn : ∀ later ∈ tail, isContinuationLine later.toList = true :=
            continued _ List.mem_cons_self
          rw [List.flatten_cons, List.zipIdx_append, List.foldl_append, List.zipIdx_cons,
            List.foldl_cons, started, foldl_pushLine_continued goesOn, foldl_intercalate,
            ih (fun member => nonempty (List.mem_cons_of_mem _ member))
              (fun run member => continued run (List.mem_cons_of_mem _ member))
              (fun run member => starts run (List.mem_of_mem_tail member))
              (fun _ run member => starts run (List.mem_of_mem_head? member))]
          simp [eventsFrom]

/-- What a chain says of each item with the one before, it says of all but the first. -/
theorem forall_tail_of_isChain {α : Type} {step : α → α → Prop} {holds : α → Prop} {items : List α}
    (chain : items.IsChain step) (imply : ∀ item next, step item next → holds next) :
    ∀ item ∈ items.tail, holds item := by
  induction chain with
  | nil => simp
  | singleton => simp
  | cons_cons steps _ ih =>
      intro item member
      rcases List.mem_cons.mp member with rfl | member
      · exact imply _ _ steps
      · exact ih item member

theorem isChain_of_forall_tail {α : Type} {step : α → α → Prop} {items : List α}
    (each : ∀ item ∈ items, ∀ next ∈ items.tail, step item next) : items.IsChain step := by
  induction items with
  | nil => exact List.isChain_nil
  | cons item items ih =>
      rw [List.isChain_cons]
      constructor
      · intro next first
        exact each item List.mem_cons_self next (List.mem_of_mem_head? first)
      · exact ih fun other member next later =>
          each other (List.mem_cons_of_mem item member) next (List.mem_of_mem_tail later)

/-- Lines that are cut into runs: a run goes on while lines continue it. -/
structure IsRuns (lines : List String) (runs : List (List String)) : Prop where
  whole : lines = runs.flatten
  nonempty : [] ∉ runs
  continued : ∀ run ∈ runs, ∀ line ∈ run.tail, isContinuationLine line.toList = true
  starts : ∀ run ∈ runs.tail, ∀ line ∈ run.head?, isContinuationLine line.toList = false

theorem isRuns_eventLines (text : String) : IsRuns (lines text) (eventLines text) := by
  obtain ⟨whole, nonempty, chains, breaks⟩ := List.splitBy_eq_iff.mp (Eq.refl (eventLines text))
  refine ⟨whole, nonempty, fun run member => ?_, ?_⟩
  · exact forall_tail_of_isChain (chains run member) fun _ _ continues => continues
  · refine forall_tail_of_isChain breaks ?_
    rintro run next ⟨_, some, breaks⟩ line first
    rw [List.head?_eq_some_head some] at first
    rw [← Option.some.inj first]
    exact breaks

theorem IsRuns.eq_eventLines {text : String} {runs : List (List String)}
    (isRuns : IsRuns (lines text) runs) : runs = eventLines text := by
  obtain ⟨whole, nonempty, continued, starts⟩ := isRuns
  rw [eventLines, whole]
  symm
  apply List.splitBy_flatten nonempty
  · exact fun run member => isChain_of_forall_tail fun _ _ next later =>
      continued run member next later
  · refine isChain_of_forall_tail fun run member next later => ?_
    have some : run ≠ [] := fun empty => nonempty (empty ▸ member)
    have some' : next ≠ [] := fun empty => nonempty (empty ▸ List.mem_of_mem_tail later)
    exact ⟨some, some', starts next later _ (List.head?_eq_some_head some')⟩

/-- The entries of a plain log are those of the only runs that its lines are cut into. -/
theorem plainEntries_runs (env : LogEnv) (text : String) :
    ∃ runs, IsRuns (lines text) runs ∧ (∀ other, IsRuns (lines text) other → other = runs) ∧
      plainEntries env text = (eventsFrom 1 runs).filterMap (plainEntry env) := by
  have isRuns := isRuns_eventLines text
  refine ⟨eventLines text, isRuns, fun other => IsRuns.eq_eventLines, ?_⟩
  have looped : ((lines text).zipIdx 1).foldl pushLine [] = eventsFrom 1 (eventLines text) := by
    rw [isRuns.whole]
    exact foldl_pushLine_runs isRuns.nonempty isRuns.continued isRuns.starts
      (fun some => absurd rfl some) 1
  rw [plainEntries, looped]

end Plain

/-! ## Exemplars -/

section Exemplars

variable (env : LogEnv) {occurrences : List Occurrence}

/-- An exemplar is the first in the file of its time and content. -/
theorem mem_exemplars {exemplar : (String × String) × Occurrence} :
    exemplar ∈ exemplars env occurrences ↔
      bestOf earlierLine (occurrences.filter fun occurrence =>
        exemplarKey env occurrence = exemplar.1) = some exemplar.2 := by
  obtain ⟨key, occurrence⟩ := exemplar
  rw [exemplars, List.mem_insertionSort, Std.ExtTreeMap.mem_toList_iff_getElem?_eq_some,
    getElem?_foldl_keepBestOnto]

variable {env}

/-- An exemplar is an occurrence of its time and content, with none before it in the file. -/
theorem exemplar_spec {exemplar : (String × String) × Occurrence}
    (member : exemplar ∈ exemplars env occurrences) :
    exemplar.2 ∈ occurrences ∧ exemplarKey env exemplar.2 = exemplar.1 ∧
      ∀ other ∈ occurrences, exemplarKey env other = exemplar.1 →
        exemplar.2.sourceLine ≤ other.sourceLine := by
  obtain ⟨inside, upper⟩ := isBest_of_bestOf ((mem_exemplars env).mp member)
  obtain ⟨inside, key⟩ := List.mem_filter.mp inside
  refine ⟨inside, by simpa using key, fun other listed same => ?_⟩
  have notEarlier := upper other (List.mem_filter.mpr ⟨listed, by simpa using same⟩)
  rw [earlierLine, Ne, Nat.compare_eq_lt] at notEarlier
  omega

variable (env) in
theorem exists_exemplar {occurrence : Occurrence} (member : occurrence ∈ occurrences) :
    ∃ exemplar ∈ exemplars env occurrences, exemplar.1 = exemplarKey env occurrence := by
  cases best : bestOf earlierLine
      (occurrences.filter fun other => exemplarKey env other = exemplarKey env occurrence) with
  | none =>
      rw [bestOf_eq_none_iff, List.filter_eq_nil_iff] at best
      exact absurd (decide_eq_true rfl) (best occurrence member)
  | some exemplar => exact ⟨(exemplarKey env occurrence, exemplar), (mem_exemplars env).mpr best, rfl⟩

/-- There is an exemplar at each time. -/
theorem mem_times_exemplars {time : String} :
    time ∈ (exemplars env occurrences).map (fun exemplar => exemplar.1.1) ↔
      time ∈ occurrences.map Occurrence.validTime := by
  constructor
  · intro member
    obtain ⟨exemplar, listed, rfl⟩ := List.mem_map.mp member
    obtain ⟨inside, key, -⟩ := exemplar_spec listed
    rw [← key]
    exact List.mem_map_of_mem inside
  · intro member
    obtain ⟨occurrence, inside, rfl⟩ := List.mem_map.mp member
    obtain ⟨exemplar, listed, key⟩ := exists_exemplar env inside
    exact List.mem_map.mpr ⟨exemplar, listed, congrArg Prod.fst key⟩

/-- Exemplars of one content are in the order of their times. -/
theorem ascending_exemplars {template : String}
    (sameContent : ∀ occurrence ∈ occurrences, occurrence.template = template) :
    ((exemplars env occurrences).map fun exemplar => exemplar.1.1).Pairwise
      fun time later => byteOrder time later = .lt := by
  have content {exemplar : (String × String) × Occurrence}
      (member : exemplar ∈ exemplars env occurrences) :
      exemplar.1.2 = String.ofList (toHex (env.blake3 (asBytes template))) := by
    obtain ⟨inside, key, -⟩ := exemplar_spec member
    rw [← key, exemplarKey, sameContent _ inside]
  have sorted : (exemplars env occurrences).Pairwise
      fun exemplar other => exemplarOrder exemplar other ≠ .gt :=
    pairwise_insertionSort_cmp exemplarOrder _
  have distinct : (exemplars env occurrences).Pairwise
      fun exemplar other => exemplar.1 ≠ other.1 := by
    refine (List.perm_insertionSort _ _).pairwise_iff (fun differ => differ.symm) |>.mpr ?_
    refine Std.ExtTreeMap.distinct_keys_toList.imp fun differ same => differ ?_
    rw [same]
    exact Std.ReflCmp.compare_self
  rw [List.pairwise_map]
  refine (sorted.and distinct).imp_of_mem fun {exemplar other} member member' both => ?_
  obtain ⟨notAfter, differ⟩ := both
  cases times : byteOrder exemplar.1.1 other.1.1 with
  | lt => rfl
  | eq =>
      exact absurd (Prod.ext (byteOrder_eq_iff.mp times)
        ((content member).trans (content member').symm)) differ
  | gt =>
      exfalso
      apply notAfter
      have first : compareOn (fun exemplar : (String × String) × Occurrence => asBytes exemplar.1.1)
        exemplar other = .gt := times
      rw [exemplarOrder, compareLex, first]
      rfl

end Exemplars

/-! ## Exemplars of a scan -/

section Scanned

variable {env : LogEnv} {site : ScanSite} {utf8Error : Bytes → String} {raw : Bytes}
  {text : String} {retain : Bool} {scan : LogScan}

/-- The exemplars that are kept of some entries with these times: the first entry in the file at
each of the earliest times, as texts. -/
structure IsExemplars (transactionTime : String) (entries : List LogEntry) (times : List String)
    (events : List (LogNode LogEventPayload)) : Prop where
  ascending : times.Pairwise fun time later => byteOrder time later = .lt
  complete : ∀ time, time ∈ times ↔ time ∈ entries.map (LogEntry.timeText transactionTime)
  kept : events.map LogNode.validTime = times.take defaultExemplarCap
  first : ∀ event ∈ events, ∃ entry ∈ entries,
    entry.timeText transactionTime = event.validTime ∧
      entry.sourceLine = event.payload.sourceLine ∧
      ∀ other ∈ entries, other.timeText transactionTime = event.validTime →
        entry.sourceLine ≤ other.sourceLine

/-- The exemplars of a turn are those of its entries. -/
theorem isExemplars_signatureTurn {sourceId : String}
    {group : (String × String) × List Occurrence}
    (listed : group ∈ signatureGroups (occurrencesOf env site text)) :
    IsExemplars site.transactionTime (keyEntries env text group.1)
      ((exemplars env group.2).map fun exemplar => exemplar.1.1)
      (signatureTurn env site sourceId group).events := by
  obtain ⟨key, occurrences⟩ := group
  rw [mem_signatureGroups_iff] at listed
  obtain ⟨-, rfl⟩ := listed
  have sameContent : ∀ occurrence ∈ (keyEntries env text key).map
      (occurrenceOf env site.transactionTime (txBucketOf env site)), occurrence.template = key.2 := by
    intro occurrence member
    obtain ⟨entry, inside, rfl⟩ := List.mem_map.mp member
    have sameKey : entry.key env = key := by simpa using (List.mem_filter.mp inside).2
    exact congrArg Prod.snd sameKey
  have text (entry : LogEntry) : (occurrenceOf env site.transactionTime (txBucketOf env site)
      entry).validTime = entry.timeText site.transactionTime := validTime_occurrenceOf _ entry
  rw [events_signatureTurn]
  refine ⟨ascending_exemplars sameContent, fun time => ?_, ?_, ?_⟩
  · rw [mem_times_exemplars, List.map_map]
    simp only [List.mem_map, Function.comp_apply, text]
  · rw [← List.map_take]
    exact List.map_map
  · intro event member
    obtain ⟨exemplar, listed, rfl⟩ := List.mem_map.mp member
    obtain ⟨inside, ofKey, first⟩ := exemplar_spec (List.mem_of_mem_take listed)
    obtain ⟨entry, inside, same⟩ := List.mem_map.mp inside
    have line : entry.sourceLine = exemplar.2.sourceLine := by rw [← same]; rfl
    have time : entry.timeText site.transactionTime = exemplar.1.1 := by
      rw [← ofKey, ← same]
      exact (text entry).symm
    refine ⟨entry, inside, time, line, fun other inside' sameTime => ?_⟩
    rw [line]
    refine first (occurrenceOf env site.transactionTime (txBucketOf env site) other)
      (List.mem_map_of_mem inside') ?_
    have contents := (sameContent _ (List.mem_map_of_mem inside')).trans
      (sameContent _ (List.mem_map_of_mem inside)).symm
    rw [← ofKey, ← same, exemplarKey, exemplarKey, contents, text, text, time]
    exact congrArg (·, _) sameTime

/-- The diagnostics of a signature are those of its turn. -/
theorem diagnostics_scanText {sourceArtifactHash : String}
    (apart : TellsApart env.blake3
      (scanIdentities env site (sourceIdOf env site sourceArtifactHash) text))
    {group : (String × String) × List Occurrence}
    (listed : group ∈ signatureGroups (occurrencesOf env site text)) :
    ((scanText env site sourceArtifactHash text retain).diagnostics.filter fun diagnostic =>
        diagnostic.signatureId = signatureIdOf env site group.1) =
      (exemplarDiagnostic (signatureIdOf env site group.1) group.1
        (exemplars env group.2).length).toList := by
  have ofTurn : ∀ other ∈ signatureGroups (occurrencesOf env site text),
      ((exemplarDiagnostic (signatureIdOf env site other.1) other.1
          (exemplars env other.2).length).toList.filter fun diagnostic =>
        diagnostic.signatureId = signatureIdOf env site group.1) =
        if other = group then
          (exemplarDiagnostic (signatureIdOf env site other.1) other.1
            (exemplars env other.2).length).toList
        else [] := by
    intro other listed'
    have named : ∀ diagnostic ∈ (exemplarDiagnostic (signatureIdOf env site other.1) other.1
        (exemplars env other.2).length).toList,
        diagnostic.signatureId = signatureIdOf env site other.1 := by
      intro diagnostic member
      rw [exemplarDiagnostic] at member
      split at member
      · rw [Option.toList_some, List.mem_singleton] at member
        rw [member]
      · cases member
    split
    · next same =>
        rw [List.filter_eq_self]
        intro diagnostic member
        rw [decide_eq_true_eq, named diagnostic member, same]
    · next differ =>
        rw [List.filter_eq_nil_iff]
        intro diagnostic member found
        rw [decide_eq_true_eq, named diagnostic member] at found
        exact differ (group_eq_of_signatureId apart listed' listed found)
  have turns : (scanText env site sourceArtifactHash text retain).diagnostics =
      (signatureGroups (occurrencesOf env site text)).flatMap fun other =>
        (exemplarDiagnostic (signatureIdOf env site other.1) other.1
          (exemplars env other.2).length).toList := by
    rw [scanText, signatureTurns, List.filterMap_map, List.filterMap_eq_flatMap_toList]
    rfl
  rw [turns, List.filter_flatMap, List.flatMap_congr ofTurn]
  exact flatMap_only (nodup_signatureGroups _) listed

/-- Each signature keeps the exemplars of its entries up to the cap, with a diagnostic of what is
dropped past it. -/
theorem scanLogRecords_exemplars
    (scanned : scanLogRecords env site utf8Error (.ok raw) retain = .ok scan)
    (decoded : fromUtf8 (normalizeNewlines raw) = some text)
    (apart : TellsApart env.blake3 (fileIdentities env site raw text)) :
    ∀ signature ∈ scan.records.filterMap LogRecord.asSignature, ∃ times,
      IsExemplars site.transactionTime (signatureEntries env site text signature.id) times
        (eventsOf scan.records signature.id) ∧
      (scan.diagnostics.filter fun diagnostic => diagnostic.signatureId = signature.id) =
        if times.length > defaultExemplarCap then
          [⟨"exemplar_cap_reached", signature.id, signature.payload.severity, defaultExemplarCap,
            times.length - defaultExemplarCap⟩]
        else [] := by
  intro signature member
  obtain rfl := scan_eq scanned decoded
  rw [signatures_scanText] at member
  obtain ⟨group, listed, rfl⟩ := List.mem_map.mp member
  have entries := signatureEntries_eq apart listed
  refine ⟨(exemplars env group.2).map fun exemplar => exemplar.1.1, ?_, ?_⟩
  · change IsExemplars _ (signatureEntries env site text (signatureIdOf env site group.1)) _
      (eventsOf _ (signatureIdOf env site group.1))
    rw [entries, eventsOf_scanText apart listed]
    exact isExemplars_signatureTurn listed
  · change ((scanText env site _ text retain).diagnostics.filter fun diagnostic =>
      diagnostic.signatureId = signatureIdOf env site group.1) = _
    rw [diagnostics_scanText apart listed, exemplarDiagnostic, List.length_map]
    split <;> rfl

theorem sample_exemplars :
    ∃ signature ∈ sampleScan.records.filterMap LogRecord.asSignature,
      (signatureEntries sampleEnv sampleSite sampleText signature.id).length = 6 ∧ ∃ times,
      IsExemplars sampleSite.transactionTime
        (signatureEntries sampleEnv sampleSite sampleText signature.id) times
        (eventsOf sampleScan.records signature.id) ∧
      (sampleScan.diagnostics.filter fun diagnostic => diagnostic.signatureId = signature.id) =
        if times.length > defaultExemplarCap then
          [⟨"exemplar_cap_reached", signature.id, signature.payload.severity, defaultExemplarCap,
            times.length - defaultExemplarCap⟩]
        else [] := by
  obtain ⟨signature, listed, six⟩ := sample_signature
  exact ⟨signature, listed, six,
    scanLogRecords_exemplars sample_scanned sample_decoded sample_apart signature listed⟩

end Scanned

/-! ## Protected capture -/

section Capture

/-- The lines of a text, each with the newline that ends it. -/
def terminatedLines (text : String) : List (List Char) :=
  splitInclusive (· = '\n') text.toList

/-- What is between the newlines of a text. -/
def sourceLines (text : String) : List (List Char) :=
  (terminatedLines text).map (stripSuffix '\n')

theorem newline_not_mem_marker (marker : Marker) : '\n' ∉ marker.text := by
  intro member
  simp only [Marker.text_eq, Marker.inner, List.mem_append, List.mem_cons, List.not_mem_nil,
    or_false] at member
  rcases member with inPrefix | (inClass | mark | inHash) | mark
  · revert inPrefix
    decide
  · revert inClass
    cases marker.secretClass <;> decide
  · exact absurd mark (by decide)
  · exact absurd (marker.hex _ inHash) (by decide)
  · exact absurd mark (by decide)

variable (blake3 : String → Vector UInt8 32)

/-- Redaction of a line leaves one line. -/
theorem newline_not_mem_redactLine (line : List Char) (single : '\n' ∉ line) :
    '\n' ∉ redactLine blake3 line := by
  cases secret : detectSecret (String.ofList line) with
  | none => rwa [redactLine, redactValue_of_none secret, String.toList_ofList]
  | some found =>
      rw [redactLine, redactValue_of_some secret, String.toList_ofList]
      exact newline_not_mem_marker _

theorem redactLine_ne_nil (line : List Char) (nonempty : line ≠ []) :
    redactLine blake3 line ≠ [] := by
  cases secret : detectSecret (String.ofList line) with
  | none => rwa [redactLine, redactValue_of_none secret, String.toList_ofList]
  | some found =>
      rw [redactLine, redactValue_of_some secret, String.toList_ofList]
      exact Marker.text_ne_nil _

/-- Every newline stays where it is, also the last one, and what is before it is redacted. -/
theorem terminatedLines_capturedText (redacted : String) :
    terminatedLines (capturedText blake3 redacted) =
      (terminatedLines redacted).map (mapLine '\n' (redactLine blake3)) := by
  rw [terminatedLines, capturedText, String.toList_ofList]
  exact splitInclusive_mapLine (newline_not_mem_redactLine blake3) (redactLine_ne_nil blake3) _

/-- Between the newlines is what was there, redacted. -/
theorem sourceLines_capturedText (redacted : String) :
    sourceLines (capturedText blake3 redacted) =
      (sourceLines redacted).map (redactLine blake3) := by
  rw [sourceLines, terminatedLines, capturedText, String.toList_ofList]
  exact stripSuffix_mapLine (newline_not_mem_redactLine blake3) (redactLine_ne_nil blake3) _

/-- The bytes that are captured of a log are its redacted text, whose lines are redacted once more
and keep their newlines, and no line of them has a secret. -/
theorem redactedSourceBytes_clean (env : LogEnv) (text : String) :
    ∃ redacted captured : String,
      (∃ bound, ∀ rounds ≥ bound,
        (redactCodeText rounds text redactedSecret).map Prod.fst = some redacted ∧
          redactedSourceBytes env rounds text = some (asBytes captured)) ∧
      terminatedLines captured = (terminatedLines redacted).map
        (mapLine '\n' (redactLine fun text => env.blake3 (asBytes text))) ∧
      ∀ line ∈ sourceLines captured, detectSecret (String.ofList line) = none := by
  obtain ⟨work, counts, bound, -, -, loops⟩ :=
    (RedactionRun.start : RedactionRun _ text.toList _ _).exists_end
      Placeholder.redactedSecret.isPlaceholder
  have ended : ∀ rounds ≥ bound, redactCodeText rounds text redactedSecret =
      some (String.ofList (rendered redactedSecret.toList work), counts) := by
    intro rounds enough
    have loop := loops rounds enough
    rw [rendered_untouched] at loop
    rw [redactCodeText]
    exact congrArg (Option.map _) loop
  generalize String.ofList (rendered redactedSecret.toList work) = redacted at ended
  refine ⟨redacted, _, ⟨bound, fun rounds enough => ?_⟩,
    terminatedLines_capturedText (fun text => env.blake3 (asBytes text)) redacted, ?_⟩
  · rw [redactedSourceBytes, ended rounds enough]
    exact ⟨rfl, rfl⟩
  · intro line member
    rw [sourceLines_capturedText] at member
    obtain ⟨before, -, rfl⟩ := List.mem_map.mp member
    rw [redactLine, String.ofList_toList]
    exact detectSecret_redactValue _ _

end Capture

end Egregore.LogGraph
