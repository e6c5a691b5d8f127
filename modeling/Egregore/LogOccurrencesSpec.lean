import Egregore.LogScanSpec

/-!
# Occurrences of a scan

A scan conserves the occurrences of its text if the hours of each signature add up to its count and
hold the times of its entries in order, and if the first and last times that it keeps are those of
its outermost entries. The former always holds. The latter compares texts, of which one is the
transaction time as it was given: `conservesOccurrences_iff` says exactly when that is enough.
-/

namespace Egregore.LogGraph

open Base UtcDateTime

/-! ## What is conserved -/

/-- The records of a scan conserve the occurrences of its text: a signature counts its entries, which
are also what its hours add up to; its hours hold their times in order; and it keeps the times of
the outermost entries. -/
structure ConservesOccurrences (env : LogEnv) (site : ScanSite) (tx : UtcDateTime) (text : String)
    (records : List LogRecord) : Prop where
  counted : ∀ signature ∈ records.filterMap LogRecord.asSignature,
    signature.payload.occurrenceCount = (signatureEntries env site text signature.id).length
  summed : ∀ signature ∈ records.filterMap LogRecord.asSignature,
    ((hoursOf records signature.id).map fun bucket => bucket.payload.occurrenceCount).sum =
      signature.payload.occurrenceCount
  hours : ∀ signature ∈ records.filterMap LogRecord.asSignature,
    ∀ bucket ∈ hoursOf records signature.id, ∃ start times,
      IsHour tx (signatureEntries env site text signature.id) bucket.payload start times
  seen : ∀ signature ∈ records.filterMap LogRecord.asSignature, ∀ spanEnd,
    IsOutermost env tx spanEnd (signatureEntries env site text signature.id)
      (signature.payload.seenAt spanEnd)

/-! ## Whole scans -/

section Whole

variable {env : LogEnv} {site : ScanSite} {tx : UtcDateTime} {utf8Error : Bytes → String}
  {raw : Bytes} {text : String} {retain : Bool} {scan : LogScan}

/-- Every key that has entries has a signature. -/
theorem exists_signature (scanned : scanLogRecords env site utf8Error (.ok raw) retain = .ok scan)
    (decoded : fromUtf8 (normalizeNewlines raw) = some text)
    (apart : TellsApart env.blake3 (fileIdentities env site raw text)) {key : String × String}
    (nonempty : keyEntries env text key ≠ []) :
    ∃ signature ∈ scan.records.filterMap LogRecord.asSignature,
      signatureEntries env site text signature.id = keyEntries env text key ∧
      ∀ spanEnd, signature.payload.seenAt spanEnd = seen spanEnd
        ((keyEntries env text key).map
          (occurrenceOf env site.transactionTime (txBucketOf env site))) := by
  obtain rfl := scan_eq scanned decoded
  have listed := mem_signatureGroups_iff.mpr
    ⟨nonempty, (rfl : (keyEntries env text key).map
      (occurrenceOf env site.transactionTime (txBucketOf env site)) = _)⟩
  rw [fileIdentities] at apart
  refine ⟨_, by rw [signatures_scanText]; exact List.mem_map_of_mem listed,
    signatureEntries_eq apart listed, fun spanEnd => ?_⟩
  cases spanEnd <;> rfl

/-- A scan conserves the occurrences exactly if the texts of the times follow the times at both ends of
the entries of each severity and template. -/
theorem conservesOccurrences_iff
    (valid : env.chrono.parseFromRfc3339 site.transactionTime = some tx)
    (scanned : scanLogRecords env site utf8Error (.ok raw) retain = .ok scan)
    (decoded : fromUtf8 (normalizeNewlines raw) = some text)
    (apart : TellsApart env.blake3 (fileIdentities env site raw text)) :
    ConservesOccurrences env site tx text scan.records ↔
      ∀ key, keyEntries env text key ≠ [] →
        ∀ spanEnd, TextFollows tx site.transactionTime spanEnd (keyEntries env text key) := by
  constructor
  · intro conserves key nonempty spanEnd
    obtain ⟨signature, member, entries, kept⟩ := exists_signature scanned decoded apart nonempty
    have outermost := conserves.seen signature member spanEnd
    rw [entries, kept] at outermost
    exact (isOutermost_seen_iff spanEnd _ valid nonempty).mp outermost
  · intro follows
    refine ⟨fun signature member => ?_, fun signature member => ?_, fun signature member => ?_,
      fun signature member spanEnd => ?_⟩
    all_goals
      obtain ⟨sourceId, key, nonempty, entries, count, hours, kept⟩ :=
        exists_key scanned decoded apart member
    · rw [entries, count]
    · rw [hours, sum_signatureTurn, sum_hourlyBuckets, List.length_map, count]
    · rw [hours, entries, txBucketOf_eq valid, buckets_signatureTurn]
      intro bucket inside
      obtain ⟨⟨start, kept⟩, hourly, rfl⟩ := List.mem_map.mp inside
      exact isHour_of_mem valid hourly
    · rw [entries, kept]
      exact (isOutermost_seen_iff spanEnd _ valid nonempty).mpr (follows key nonempty spanEnd)

/-- The sample is conserved. -/
theorem sample_conserves :
    ConservesOccurrences sampleEnv sampleSite sampleTx sampleText sampleScan.records := by
  obtain ⟨valid, written⟩ := sample_facts.2.2.1
  refine (conservesOccurrences_iff valid sample_scanned sample_decoded sample_apart).mpr
    fun key nonempty spanEnd => ?_
  apply (isOutermost_seen_iff spanEnd (txBucketOf sampleEnv sampleSite) valid nonempty).mp
  refine isOutermost_seen spanEnd written (fun entry inside => ?_) nonempty
  rw [keyEntries] at inside
  exact sample_facts.2.2.2.1 entry (List.mem_filter.mp inside).1

/-- Two warnings of one kind, of which one is stamped with a day that there is not. -/
def offsetLines : List String := ["2026-01-02T04:00:00Z WARN lag", "2026-02-30T04:00:00Z WARN lag"]

def offsetText : String :=
  String.ofList ((offsetLines.map String.toList).flatMap fun line => line ++ ['\n'])

/-- The transaction time is not written in UTC. -/
theorem offset_zone : "2026-01-02T05:00:00+02:00".toList.getLast? ≠ some 'Z' := by
  decide

def offsetEnv : LogEnv where
  chrono := (Chrono.ofTimes [sampleFour]).withOffset "2026-01-02T05:00:00+02:00" sampleThree
    offset_zone
  valueFromStr _ := none
  blake3 := sampleHash
  rootStr := "/repo".toList

def offsetSite : ScanSite where
  sourceRelativePath := "app.log"
  repositoryId := "repo"
  transactionTime := "2026-01-02T05:00:00+02:00"

def offsetScan : LogScan :=
  scanText offsetEnv offsetSite (artifactHash offsetEnv (asBytes offsetText)) offsetText false

/-- What is evaluated of the log: its lines, its bytes, its entries and their template, and the
identities, which the checksum tells apart. -/
theorem offset_facts :
    (lines offsetText = offsetLines ∧
      normalizeNewlines (asBytes offsetText) = asBytes offsetText ∧ 0 ∉ asBytes offsetText) ∧
    keyEntries offsetEnv offsetText ("warn", "<TS> WARN lag") =
      [sampleWarning "2026-01-02T04:00:00Z WARN lag" 1 (some sampleFour),
        sampleWarning "2026-02-30T04:00:00Z WARN lag" 2 none] ∧
    ((fileIdentities offsetEnv offsetSite (asBytes offsetText) offsetText).map fun parts =>
      offsetEnv.blake3 (identityBytes parts)).Nodup := by
  have split : lines offsetText = offsetLines := by
    rw [offsetText, lines_flatMap (by decide), List.map_map]
    decide
  have plain : detectFormat offsetEnv offsetText = formatPlainV1 := by
    rw [detectFormat, split]
    decide
  have entries : entriesOf offsetEnv (detectFormat offsetEnv offsetText) offsetText =
      [sampleWarning "2026-01-02T04:00:00Z WARN lag" 1 (some sampleFour),
        sampleWarning "2026-02-30T04:00:00Z WARN lag" 2 none] := by
    rw [plain, entriesOf, if_neg (by decide), plainEntries, split]
    decide
  have templates : ∀ line ∈ offsetLines,
      fingerprint offsetEnv line = ("<TS> WARN lag", false) := by
    decide +kernel
  simp only [offsetLines, List.forall_mem_cons, List.not_mem_nil, false_implies, implies_true,
    and_true] at templates
  rw [fileIdentities, scanIdentities, occurrencesOf, keyEntries, entries]
  refine ⟨⟨split, by decide +kernel⟩, ?_⟩
  -- The rest needs no more of the templates.
  simp only [sampleWarning, occurrenceOf, LogEntry.key, List.map_cons, List.map_nil,
    List.filter_cons, List.filter_nil, templates]
  decide +kernel

/-- The bytes of the log are its text. -/
theorem offset_decoded : fromUtf8 (normalizeNewlines (asBytes offsetText)) = some offsetText := by
  rw [offset_facts.1.2.1, fromUtf8_asBytes]

/-- The scan of the log. -/
theorem offset_scanned :
    scanLogRecords offsetEnv offsetSite (fun _ => "") (.ok (asBytes offsetText)) false =
      .ok offsetScan := by
  have read : logText (fun _ => "") (asBytes offsetText) = .ok offsetText := by
    rw [logText, if_neg offset_facts.1.2.2, fromUtf8_asBytes]
  rw [scanLogRecords_ok, offset_facts.1.2.1, read, offsetScan, Except.map]

/-- The text of the transaction time, three o'clock, comes after that of four o'clock, so the earlier
of the two entries is not the first that the signature keeps. -/
theorem offsetScan_not_conserves :
    offsetEnv.chrono.parseFromRfc3339 offsetSite.transactionTime = some sampleThree ∧
    scanLogRecords offsetEnv offsetSite (fun _ => "") (.ok (asBytes offsetText)) false =
      .ok offsetScan ∧
    TellsApart offsetEnv.blake3 (fileIdentities offsetEnv offsetSite (asBytes offsetText) offsetText) ∧
    ¬ ConservesOccurrences offsetEnv offsetSite sampleThree offsetText offsetScan.records := by
  have valid : offsetEnv.chrono.parseFromRfc3339 offsetSite.transactionTime = some sampleThree := by
    decide
  obtain ⟨-, both, distinct⟩ := offset_facts
  have apart := tellsApart_of_nodup distinct
  refine ⟨valid, offset_scanned, apart, fun conserves => ?_⟩
  have nonempty : keyEntries offsetEnv offsetText ("warn", "<TS> WARN lag") ≠ [] := by
    rw [both]
    exact List.cons_ne_nil _ _
  obtain ⟨signature, member, entries, kept⟩ :=
    exists_signature offset_scanned offset_decoded apart nonempty
  have outermost := conserves.seen signature member .first
  rw [entries, kept, isOutermost_seen_iff .first _ valid nonempty, both] at outermost
  rcases outermost with ⟨-, leads⟩ | ⟨time, stamped, -, leads⟩
  · have texts := (leads sampleFour (by decide)).2
    exact texts (by decide)
  · obtain rfl : time = sampleFour := by simpa [sampleWarning] using stamped
    have times := (leads ⟨_, List.mem_cons_of_mem _ (List.mem_singleton_self _), rfl⟩).1
    exact times (by decide)

end Whole

end Egregore.LogGraph
