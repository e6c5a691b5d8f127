import Egregore.LogLinks

/-!
# Log scans conserve occurrences

What a scan says of a signature: the hours partition its occurrences, and the first and last times
are those of its earliest and latest occurrences exactly when the texts of the times follow the
times there. `scanLogRecords_counts` and `scanLogRecords_hours` are about the former,
`scanLogRecords_seen_iff` about the latter; `scanLogRecords_seen` is the case that the command is
in.
-/

namespace Egregore.LogGraph

open Base UtcDateTime

/-! ## Times of the entries -/

section Times

variable (env : LogEnv) (transactionTime txBucket : String) (tx : UtcDateTime)

/-- When an entry occurred: at its timestamp, else at the transaction time. -/
def LogEntry.instant (entry : LogEntry) : UtcDateTime := entry.timestamp.getD tx

variable {env transactionTime tx}

/-- An occurrence keeps the full time of its entry. -/
theorem preciseTime_occurrenceOf (valid : env.chrono.parseFromRfc3339 transactionTime = some tx)
    (entry : LogEntry) : (occurrenceOf env transactionTime txBucket entry).preciseTime =
      (entry.instant tx).toRfc3339Opts .nanos := by
  cases timestamp : entry.timestamp with
  | none => simp [occurrenceOf, resolveTime, LogEntry.instant, timestamp, valid]
  | some time => simp [occurrenceOf, resolveTime, LogEntry.instant, timestamp]

/-- An occurrence is filed under the hour of its entry. -/
theorem bucketStart_occurrenceOf (entry : LogEntry) :
    (occurrenceOf env transactionTime (tx.floorDatetime.toRfc3339Opts .secs) entry).bucketStart =
      (entry.instant tx).floorDatetime.toRfc3339Opts .secs := by
  cases timestamp : entry.timestamp with
  | none => simp [occurrenceOf, resolveTime, LogEntry.instant, timestamp]
  | some time => simp [occurrenceOf, resolveTime, LogEntry.instant, timestamp]

/-- An occurrence without a timestamp keeps the text of the transaction time. -/
theorem validTime_occurrenceOf (entry : LogEntry) :
    (occurrenceOf env transactionTime txBucket entry).validTime =
      (entry.timestamp.map fun time => time.toRfc3339Opts .secs).getD transactionTime := by
  cases timestamp : entry.timestamp with
  | none => simp [occurrenceOf, resolveTime, timestamp]
  | some time => simp [occurrenceOf, resolveTime, timestamp]

end Times

/-! ## First and last times -/

/-- An end of a span of times. -/
inductive SpanEnd where
  | first | last
  deriving DecidableEq, Repr

/-- The comparison of a time nearer to the end, or as near, with another. -/
def SpanEnd.Leads : SpanEnd → Ordering → Prop
  | .first, compared => compared ≠ .gt
  | .last, compared => compared ≠ .lt

namespace SpanEnd

variable {spanEnd : SpanEnd} {compared next : Ordering}

/-- An equal stamp leads at both ends. -/
@[simp] theorem leads_eq : spanEnd.Leads .eq := by
  cases spanEnd <;> simp [Leads]

/-- A stamp leads by its first difference. -/
theorem leads_then :
    spanEnd.Leads (compared.then next) ↔
      spanEnd.Leads compared ∧ (compared = .eq → spanEnd.Leads next) := by
  cases spanEnd <;> cases compared <;> simp [Leads]

/-- Of two that lead each other neither comes before. -/
theorem eq_of_leads (leads : spanEnd.Leads compared) (leads' : spanEnd.Leads compared.swap) :
    compared = .eq := by
  cases spanEnd <;> cases compared <;> simp [Leads] at leads leads' ⊢

end SpanEnd

section Law

variable (env : LogEnv) (tx : UtcDateTime)

/-- A text that stands for a second: as it is written, or as it is read. -/
def Denotes (chrono : Chrono) (text : String) (time : UtcDateTime) : Prop :=
  text = time.toRfc3339Opts .secs ∨
    ∃ read, chrono.parseFromRfc3339 text = some read ∧ read.secondOrder time = .eq

/-- A text that stands for the second of an outermost entry. -/
def IsOutermost (spanEnd : SpanEnd) (entries : List LogEntry) (text : String) : Prop :=
  ∃ entry ∈ entries, Denotes env.chrono text (entry.instant tx) ∧
    ∀ other ∈ entries, spanEnd.Leads ((entry.instant tx).secondOrder (other.instant tx))

/-- The times of the entries in an hour. -/
def hourTimes (tx : UtcDateTime) (entries : List LogEntry) (hour : UtcDateTime) : List UtcDateTime :=
  (entries.map (LogEntry.instant tx)).filter fun time => time.floorDatetime = hour

/-- A bucket of the entries in an hour: all their times, in order. -/
structure IsHour (entries : List LogEntry) (bucket : LogOccurrenceBucketPayload) (start : UtcDateTime)
    (times : List UtcDateTime) : Prop where
  start_text : bucket.bucketStart = start.toRfc3339Opts .secs
  on_hour : start.minute = 0 ∧ start.second = 0 ∧ start.nanosecond = 0
  count : bucket.occurrenceTimestamps.length = bucket.occurrenceCount
  texts : bucket.occurrenceTimestamps = times.map fun time => time.toRfc3339Opts .nanos
  chronological : times.Pairwise fun time later => time.order later ≠ .gt
  inside : ∀ time ∈ times, start.InHour time
  complete : times.Perm (hourTimes tx entries start)

end Law

section Condition

variable (env : LogEnv) (site : ScanSite) (tx : UtcDateTime)

/-- Entries without a timestamp. -/
def Untimed (entries : List LogEntry) : Prop := ∃ entry ∈ entries, entry.timestamp = none

/-- Where the texts of the times follow the times at an end: the transaction time leads, in its text
too, where an entry falls back to it; or the outermost timestamp leads, its year as it is written
too, and leads the transaction time in time and text where an entry falls back to that. -/
def TextFollows (transactionTime : String) (spanEnd : SpanEnd) (entries : List LogEntry) : Prop :=
  (Untimed entries ∧ ∀ time ∈ entries.filterMap LogEntry.timestamp,
      spanEnd.Leads (tx.secondOrder time) ∧
        spanEnd.Leads (byteOrder transactionTime (time.toRfc3339Opts .secs))) ∨
    ∃ time ∈ entries.filterMap LogEntry.timestamp,
      (∀ other ∈ entries.filterMap LogEntry.timestamp,
        spanEnd.Leads (time.secondOrder other) ∧ spanEnd.Leads (yearOrder time.year other.year)) ∧
      (Untimed entries → spanEnd.Leads (time.secondOrder tx) ∧
        spanEnd.Leads (byteOrder (time.toRfc3339Opts .secs) transactionTime))

/-- The severity and the template of an entry. -/
def LogEntry.key (entry : LogEntry) : String × String :=
  (entry.severity.asStr, (fingerprint env entry.message).1)

/-- The entries of a severity and a template. -/
def keyEntries (text : String) (key : String × String) : List LogEntry :=
  (entriesOf env (detectFormat env text) text).filter fun entry => entry.key env = key

end Condition

/-! ## The first and last times -/

section Ends

variable {env : LogEnv} {tx : UtcDateTime} {spanEnd : SpanEnd}

/-- A text stands for one second. -/
theorem Denotes.unique {chrono : Chrono} {text : String} {time other : UtcDateTime}
    (denotes : Denotes chrono text time) (denotes' : Denotes chrono text other) :
    time.secondOrder other = .eq := by
  rw [secondOrder_eq_iff]
  rcases denotes with rfl | ⟨read, parsed, same⟩
  · rcases denotes' with written | ⟨read, parsed, same⟩
    · exact secondOrder_eq_iff.mp (toRfc3339_secs_eq_iff.mp written)
    · obtain ⟨year, fields⟩ := secondOrder_eq_iff.mp (chrono.reads_back time read parsed)
      obtain ⟨year', fields'⟩ := secondOrder_eq_iff.mp same
      exact ⟨year.symm.trans year', fields.symm.trans fields'⟩
  · obtain ⟨year, fields⟩ := secondOrder_eq_iff.mp same
    rcases denotes' with rfl | ⟨read', parsed', same'⟩
    · obtain ⟨year', fields'⟩ := secondOrder_eq_iff.mp (chrono.reads_back other read parsed)
      exact ⟨year.symm.trans year', fields.symm.trans fields'⟩
    · obtain rfl := Option.some.inj (parsed.symm.trans parsed')
      obtain ⟨year', fields'⟩ := secondOrder_eq_iff.mp same'
      exact ⟨year.symm.trans year', fields.symm.trans fields'⟩

/-- The time that is kept of occurrences for an end. -/
def seen : SpanEnd → List Occurrence → String
  | .first => firstSeen
  | .last => lastSeen

/-- The time that a signature keeps for an end. -/
def ErrorSignaturePayload.seenAt (payload : ErrorSignaturePayload) : SpanEnd → String
  | .first => payload.firstSeen
  | .last => payload.lastSeen

/-- What is kept is the outermost text. -/
theorem seen_outermost (spanEnd : SpanEnd) {occurrences : List Occurrence}
    (nonempty : occurrences ≠ []) :
    seen spanEnd occurrences ∈ occurrences.map Occurrence.validTime ∧
      ∀ text ∈ occurrences.map Occurrence.validTime,
        spanEnd.Leads (byteOrder (seen spanEnd occurrences) text) := by
  have texts : occurrences.map Occurrence.validTime ≠ [] := by simpa using nonempty
  cases spanEnd with
  | first =>
      cases found : bestOf (fun text other => byteOrder other text)
          (occurrences.map Occurrence.validTime) with
      | none => exact absurd (bestOf_eq_none_iff.mp found) texts
      | some text =>
          obtain ⟨member, upper⟩ := isBest_of_bestOf found
          rw [seen, firstSeen, found, Option.getD_some]
          exact ⟨member, fun other member' leads =>
            upper other member' (Std.OrientedCmp.lt_of_gt leads)⟩
  | last =>
      cases found : bestOf byteOrder (occurrences.map Occurrence.validTime) with
      | none => exact absurd (bestOf_eq_none_iff.mp found) texts
      | some text =>
          obtain ⟨member, upper⟩ := isBest_of_bestOf found
          rw [seen, lastSeen, found, Option.getD_some]
          exact ⟨member, upper⟩

variable {transactionTime txBucket : String} {entries : List LogEntry}

/-- The text of an entry's time. -/
def LogEntry.timeText (transactionTime : String) (entry : LogEntry) : String :=
  (entry.timestamp.map fun time => time.toRfc3339Opts .secs).getD transactionTime

/-- The text of an entry's time stands for it. -/
theorem denotes_timeText (valid : env.chrono.parseFromRfc3339 transactionTime = some tx)
    (entry : LogEntry) :
    Denotes env.chrono (entry.timeText transactionTime) (entry.instant tx) := by
  cases timestamp : entry.timestamp with
  | none =>
      refine Or.inr ⟨tx, by simpa [LogEntry.timeText, timestamp] using valid, ?_⟩
      rw [secondOrder_eq_iff, LogEntry.instant, timestamp, Option.getD_none]
      exact ⟨rfl, rfl⟩
  | some time => exact Or.inl (by simp [LogEntry.timeText, LogEntry.instant, timestamp])

variable (env spanEnd transactionTime txBucket) in
/-- One of the entries has the outermost text. -/
theorem exists_seen (nonempty : entries ≠ []) :
    ∃ entry ∈ entries,
      seen spanEnd (entries.map (occurrenceOf env transactionTime txBucket)) =
        entry.timeText transactionTime ∧
      ∀ other ∈ entries, spanEnd.Leads
        (byteOrder (entry.timeText transactionTime) (other.timeText transactionTime)) := by
  have texts : (entries.map (occurrenceOf env transactionTime txBucket)).map Occurrence.validTime =
      entries.map (LogEntry.timeText transactionTime) := by
    rw [List.map_map]
    exact List.map_congr_left fun entry _ => validTime_occurrenceOf txBucket entry
  obtain ⟨member, leads⟩ := seen_outermost spanEnd
    (by simpa using nonempty : entries.map (occurrenceOf env transactionTime txBucket) ≠ [])
  rw [texts] at member leads
  obtain ⟨entry, inside, text⟩ := List.mem_map.mp member
  refine ⟨entry, inside, text.symm, fun other member' => ?_⟩
  rw [text]
  exact leads _ (List.mem_map_of_mem member')

/-- A time of no later second, in a year that leads as it is written, leads as text. -/
theorem leads_text_iff {time other : UtcDateTime} (leads : spanEnd.Leads (time.secondOrder other)) :
    spanEnd.Leads (byteOrder (time.toRfc3339Opts .secs) (other.toRfc3339Opts .secs)) ↔
      spanEnd.Leads (yearOrder time.year other.year) := by
  rw [byteOrder_toRfc3339_secs, SpanEnd.leads_then]
  refine ⟨And.left, fun years => ⟨years, fun same => ?_⟩⟩
  have sameYear := yearOrder_eq_eq_iff.mp same
  rw [secondOrder, compareLex, SpanEnd.leads_then] at leads
  exact leads.2 (by rw [compareOn, sameYear, Std.LawfulEqCmp.compare_eq_iff_eq])

/-- Where the texts of the times follow the times, some entry leads all in time and in text. -/
theorem exists_leader (follows : TextFollows tx transactionTime spanEnd entries) :
    ∃ leader ∈ entries, ∀ other ∈ entries,
      spanEnd.Leads ((leader.instant tx).secondOrder (other.instant tx)) ∧
        spanEnd.Leads
          (byteOrder (leader.timeText transactionTime) (other.timeText transactionTime)) := by
  rcases follows with ⟨⟨leader, inside, untimed⟩, leads⟩ | ⟨time, listed, leads, leadsTx⟩
  · refine ⟨leader, inside, fun other member => ?_⟩
    rw [LogEntry.instant, LogEntry.timeText, LogEntry.instant, LogEntry.timeText, untimed]
    cases timestamp : other.timestamp with
    | none =>
        have same : tx.secondOrder tx = .eq := secondOrder_eq_iff.mpr ⟨rfl, rfl⟩
        exact ⟨by simp [same], by simp [byteOrder_eq_iff.mpr]⟩
    | some time => exact leads time (List.mem_filterMap.mpr ⟨other, member, timestamp⟩)
  · obtain ⟨leader, inside, timed⟩ := List.mem_filterMap.mp listed
    refine ⟨leader, inside, fun other member => ?_⟩
    rw [LogEntry.instant, LogEntry.timeText, LogEntry.instant, LogEntry.timeText, timed]
    cases timestamp : other.timestamp with
    | none => exact leadsTx ⟨other, member, timestamp⟩
    | some later =>
        obtain ⟨times, years⟩ := leads later (List.mem_filterMap.mpr ⟨other, member, timestamp⟩)
        exact ⟨times, (leads_text_iff times).mpr years⟩

/-- An entry that leads all in time and in text shows that the texts follow the times. -/
theorem textFollows_of_leader {leader : LogEntry} (inside : leader ∈ entries)
    (leads : ∀ other ∈ entries,
      spanEnd.Leads ((leader.instant tx).secondOrder (other.instant tx)) ∧
        spanEnd.Leads
          (byteOrder (leader.timeText transactionTime) (other.timeText transactionTime))) :
    TextFollows tx transactionTime spanEnd entries := by
  simp only [LogEntry.instant, LogEntry.timeText] at leads
  cases timestamp : leader.timestamp with
  | none =>
      refine Or.inl ⟨⟨leader, inside, timestamp⟩, fun time listed => ?_⟩
      obtain ⟨other, member, timed⟩ := List.mem_filterMap.mp listed
      simpa [timestamp, timed] using leads other member
  | some time =>
      refine Or.inr ⟨time, List.mem_filterMap.mpr ⟨leader, inside, timestamp⟩, ?_, ?_⟩
      · intro later listed
        obtain ⟨other, member, timed⟩ := List.mem_filterMap.mp listed
        have both := leads other member
        rw [timestamp, timed] at both
        exact ⟨both.1, (leads_text_iff both.1).mp both.2⟩
      · rintro ⟨other, member, untimed⟩
        simpa [timestamp, untimed] using leads other member

variable (spanEnd txBucket) in
/-- The time that a signature keeps stands for its outermost entry exactly where the texts of the
times follow the times. -/
theorem isOutermost_seen_iff (valid : env.chrono.parseFromRfc3339 transactionTime = some tx)
    (nonempty : entries ≠ []) :
    IsOutermost env tx spanEnd entries
        (seen spanEnd (entries.map (occurrenceOf env transactionTime txBucket))) ↔
      TextFollows tx transactionTime spanEnd entries := by
  obtain ⟨entry, inside, text, leadsText⟩ :=
    exists_seen env spanEnd transactionTime txBucket nonempty
  rw [text]
  constructor
  · rintro ⟨outermost, -, denotes, leads⟩
    refine textFollows_of_leader inside fun other member => ⟨?_, leadsText other member⟩
    -- the entry with the outermost text is as near to the end as an outermost entry
    have same := (denotes_timeText valid entry).unique denotes
    rw [Std.TransCmp.congr_left same]
    exact leads other member
  · intro follows
    obtain ⟨leader, member, leads⟩ := exists_leader follows
    have sameText : leader.timeText transactionTime = entry.timeText transactionTime := by
      rw [← byteOrder_eq_iff]
      apply SpanEnd.eq_of_leads (leads entry inside).2
      rw [← Std.OrientedCmp.eq_swap]
      exact leadsText leader member
    refine ⟨leader, member, ?_, fun other member' => (leads other member').1⟩
    rw [← sameText]
    exact denotes_timeText valid leader

/-- Where the transaction time is written as the times of the log are, all in four-digit years, the
times that are kept are those of the outermost entries. -/
theorem isOutermost_seen (spanEnd : SpanEnd) (written : transactionTime = tx.toRfc3339Opts .secs)
    (years : ∀ entry ∈ entries, 0 ≤ (entry.instant tx).year ∧ (entry.instant tx).year ≤ 9999)
    (nonempty : entries ≠ []) :
    IsOutermost env tx spanEnd entries
      (seen spanEnd (entries.map (occurrenceOf env transactionTime txBucket))) := by
  have text (entry : LogEntry) :
      entry.timeText transactionTime = (entry.instant tx).toRfc3339Opts .secs := by
    rw [LogEntry.timeText, LogEntry.instant, written]
    cases entry.timestamp <;> rfl
  obtain ⟨entry, inside, kept, leads⟩ :=
    exists_seen env spanEnd transactionTime txBucket nonempty
  rw [kept, text]
  refine ⟨entry, inside, Or.inl rfl, fun other member => ?_⟩
  rw [← byteOrder_toRfc3339_secs_eq (years entry inside) (years other member), ← text, ← text]
  exact leads other member

end Ends

/-! ## Hours -/

section Hours

variable {env : LogEnv} {transactionTime txBucket : String} {tx : UtcDateTime}
  {entries : List LogEntry}

/-- What the loop keeps of occurrences. -/
theorem foldl_push (group : List Occurrence) :
    group.foldl BucketEntry.push {} = {
      count := group.length
      fromTimestamp := group.any Occurrence.bucketFromTimestamp
      times := group.map Occurrence.preciseTime } := by
  induction group using List.reverseRecOn with
  | nil => rfl
  | append_singleton group occurrence ih =>
      rw [List.foldl_append, ih]
      simp [BucketEntry.push]

/-- An hour is kept with the occurrences that are filed under it. -/
theorem mem_hourlyBuckets_iff {occurrences : List Occurrence} {start : String} {entry : BucketEntry} :
    (start, entry) ∈ (hourlyBuckets occurrences).toList ↔
      start ∈ occurrences.map Occurrence.bucketStart ∧
        entry = (occurrences.filter fun occurrence => occurrence.bucketStart = start).foldl
          BucketEntry.push {} := by
  rw [Std.ExtTreeMap.mem_toList_iff_getElem?_eq_some, hourlyBuckets, getElem?_foldl_pushOnto]
  split
  · next filed => simp [filed, eq_comm]
  · next absent => simp [absent]

/-- The hours count every occurrence once. -/
theorem sum_hourlyBuckets (occurrences : List Occurrence) :
    ((hourlyBuckets occurrences).toList.map fun bucket => bucket.2.count).sum =
      occurrences.length :=
  sum_foldl_pushOnto Occurrence.bucketStart occurrences BucketEntry.push {} BucketEntry.count rfl
    fun _ _ => rfl

/-- The full texts of times in an hour are sorted as the times are. -/
theorem insertionSort_nanos {times : List UtcDateTime} {start : UtcDateTime}
    (inHour : ∀ time ∈ times, time.floorDatetime = start) :
    (times.map fun time => time.toRfc3339Opts .nanos).insertionSort
        (fun text later => byteOrder text later ≠ .gt) =
      (times.insertionSort fun time later => time.order later ≠ .gt).map
        fun time => time.toRfc3339Opts .nanos := by
  symm
  apply List.map_insertionSort
  intro time member later member'
  have sameYear : time.year = later.year := by
    have year := congrArg UtcDateTime.year (inHour time member)
    have year' := congrArg UtcDateTime.year (inHour later member')
    exact year.trans year'.symm
  rw [byteOrder_toRfc3339_nanos_eq sameYear]

variable (entries) in
/-- The times filed under the hour of an entry are those of the entries in it. -/
theorem preciseTimes_of_hour (valid : env.chrono.parseFromRfc3339 transactionTime = some tx)
    (entry : LogEntry) :
    ((entries.map
        (occurrenceOf env transactionTime (tx.floorDatetime.toRfc3339Opts .secs))).filter
      fun occurrence =>
        occurrence.bucketStart = (entry.instant tx).floorDatetime.toRfc3339Opts .secs).map
          Occurrence.preciseTime =
      (hourTimes tx entries (entry.instant tx).floorDatetime).map
        fun time => time.toRfc3339Opts .nanos := by
  have sameHour (other : LogEntry) :
      (occurrenceOf env transactionTime (tx.floorDatetime.toRfc3339Opts .secs) other).bucketStart =
          (entry.instant tx).floorDatetime.toRfc3339Opts .secs ↔
        (other.instant tx).floorDatetime = (entry.instant tx).floorDatetime := by
    rw [bucketStart_occurrenceOf]
    exact ⟨floorDatetime_eq_of_text, fun same => by rw [same]⟩
  rw [hourTimes, List.filter_map, List.filter_map, List.map_map, List.map_map]
  have inHour : entries.filter ((fun occurrence : Occurrence =>
        decide (occurrence.bucketStart = (entry.instant tx).floorDatetime.toRfc3339Opts .secs)) ∘
          occurrenceOf env transactionTime (tx.floorDatetime.toRfc3339Opts .secs)) =
      entries.filter ((fun time : UtcDateTime =>
        decide (time.floorDatetime = (entry.instant tx).floorDatetime)) ∘ LogEntry.instant tx) :=
    List.filter_congr fun other _ => decide_eq_decide.mpr (sameHour other)
  rw [inHour]
  exact List.map_congr_left fun other _ => preciseTime_occurrenceOf _ valid other

/-- A bucket of a signature is an hour of its entries. -/
theorem isHour_of_mem (valid : env.chrono.parseFromRfc3339 transactionTime = some tx)
    {site : ScanSite} {sourceId signatureId start : String} {key : String × String}
    {kept : BucketEntry}
    (member : (start, kept) ∈ (hourlyBuckets (entries.map
      (occurrenceOf env transactionTime (tx.floorDatetime.toRfc3339Opts .secs)))).toList) :
    ∃ hour times, IsHour tx entries
      (bucketNode env site sourceId signatureId key start kept).payload hour times := by
  obtain ⟨filed, rfl⟩ := mem_hourlyBuckets_iff.mp member
  obtain ⟨occurrence, inside, rfl⟩ := List.mem_map.mp filed
  obtain ⟨entry, -, rfl⟩ := List.mem_map.mp inside
  have texts := preciseTimes_of_hour entries valid entry
  have count := congrArg List.length texts
  rw [List.length_map, List.length_map] at count
  rw [bucketStart_occurrenceOf, foldl_push, texts]
  generalize hour_eq : (entry.instant tx).floorDatetime = hour at count ⊢
  have inHour : ∀ time ∈ hourTimes tx entries hour, time.floorDatetime = hour := by
    intro time member
    simpa using (List.mem_filter.mp member).2
  refine ⟨hour, (hourTimes tx entries hour).insertionSort fun time later => time.order later ≠ .gt,
    rfl, ?_, ?_, ?_, ?_, ?_, ?_⟩
  · rw [← hour_eq]
    exact ⟨rfl, rfl, rfl⟩
  · rw [bucketNode, (List.perm_insertionSort _ _).length_eq, List.length_map]
    exact count.symm
  · exact insertionSort_nanos inHour
  · exact pairwise_insertionSort_cmp _ _
  · intro time member
    rw [← inHour time ((List.mem_insertionSort _).mp member)]
    exact inHour_floorDatetime time
  · exact List.perm_insertionSort _ _

end Hours

/-! ## Scans -/

section Scans

variable {env : LogEnv} {site : ScanSite} {tx : UtcDateTime} {text : String}

/-- The hour of a transaction time that is one. -/
theorem txBucketOf_eq (valid : env.chrono.parseFromRfc3339 site.transactionTime = some tx) :
    txBucketOf env site = tx.floorDatetime.toRfc3339Opts .secs := by
  rw [txBucketOf, floorToHour, valid]
  rfl

/-- A signature has the entries of its severity and template, and has some. -/
theorem mem_signatureGroups_iff {key : String × String} {occurrences : List Occurrence} :
    (key, occurrences) ∈ signatureGroups (occurrencesOf env site text) ↔
      keyEntries env text key ≠ [] ∧
        occurrences = (keyEntries env text key).map
          (occurrenceOf env site.transactionTime (txBucketOf env site)) := by
  have grouped : (occurrencesOf env site text).filter
      (fun occurrence => some (signatureKey occurrence) = some key) =
        (keyEntries env text key).map
          (occurrenceOf env site.transactionTime (txBucketOf env site)) := by
    rw [occurrencesOf, keyEntries, List.filter_map]
    congr 1
    apply List.filter_congr
    intro entry _
    exact decide_eq_decide.mpr Option.some_inj
  have groups : (key, occurrences) ∈ signatureGroups (occurrencesOf env site text) ↔
      occurrences ≠ [] ∧ occurrences = (occurrencesOf env site text).filter
        fun occurrence => some (signatureKey occurrence) = some key :=
    mem_toList_foldl_pushEntry_keyed (fun occurrence => some (signatureKey occurrence)) _
  rw [groups, grouped]
  constructor
  · rintro ⟨nonempty, rfl⟩
    exact ⟨by simpa using nonempty, rfl⟩
  · rintro ⟨nonempty, rfl⟩
    exact ⟨by simpa using nonempty, rfl⟩

/-- The signatures have every occurrence once. -/
theorem sum_signatureGroups (occurrences : List Occurrence) :
    ((signatureGroups occurrences).map fun group => group.2.length).sum = occurrences.length :=
  sum_foldl_pushOnto signatureKey occurrences (fun group occurrence => group ++ [occurrence]) []
    List.length rfl fun group _ => by simp

section Turn

variable (env site) (sourceId : String) (group : (String × String) × List Occurrence)

/-- The buckets of a signature add up to the counts of its hours. -/
theorem sum_signatureTurn :
    ((signatureTurn env site sourceId group).buckets.map
      fun bucket => bucket.payload.occurrenceCount).sum =
        ((hourlyBuckets group.2).toList.map fun bucket => bucket.2.count).sum := by
  rw [buckets_signatureTurn, List.map_map]
  rfl

end Turn

end Scans

/-! ## Entries of a signature -/

section Entries

variable {env : LogEnv} {site : ScanSite} {sourceId text : String}
  {group : (String × String) × List Occurrence}

variable (env site) in
/-- The entries of a signature, by its identity. -/
def signatureEntries (text signatureId : String) : List LogEntry :=
  (entriesOf env (detectFormat env text) text).filter fun entry =>
    signatureIdOf env site (entry.key env) = signatureId

/-- The entries of a signature are those of its key, as no two keys share an ID. -/
theorem signatureEntries_eq
    (apart : TellsApart env.blake3 (scanIdentities env site sourceId text))
    (listed : group ∈ signatureGroups (occurrencesOf env site text)) :
    signatureEntries env site text (signatureIdOf env site group.1) =
      keyEntries env text group.1 := by
  apply List.filter_congr
  intro entry member
  refine decide_eq_decide.mpr ⟨fun same => ?_, fun same => by rw [same]⟩
  have some : keyEntries env text (entry.key env) ≠ [] :=
    List.ne_nil_of_mem (List.mem_filter.mpr ⟨member, decide_eq_true rfl⟩)
  have listed' : (entry.key env, (keyEntries env text (entry.key env)).map
      (occurrenceOf env site.transactionTime (txBucketOf env site))) ∈
        signatureGroups (occurrencesOf env site text) := mem_signatureGroups_iff.mpr ⟨some, rfl⟩
  exact congrArg Prod.fst (group_eq_of_signatureId apart listed' listed same)

end Entries

/-! ## Scans of files -/

section Files

variable {env : LogEnv} {site : ScanSite} {utf8Error : Bytes → String} {raw : Bytes}
  {text : String} {retain : Bool} {scan : LogScan}

/-- The scan of a file that can be read is that of its text. -/
theorem scanLogRecords_ok : scanLogRecords env site utf8Error (.ok raw) retain =
    (logText utf8Error (normalizeNewlines raw)).map fun text =>
      scanText env site (artifactHash env (normalizeNewlines raw)) text retain := rfl

/-- A scan is that of the text of its file. -/
theorem scan_eq (scanned : scanLogRecords env site utf8Error (.ok raw) retain = .ok scan)
    (decoded : fromUtf8 (normalizeNewlines raw) = some text) :
    scan = scanText env site (artifactHash env (normalizeNewlines raw)) text retain := by
  rw [scanLogRecords_ok, logText, decoded] at scanned
  by_cases nul : 0 ∈ normalizeNewlines raw
  · rw [if_pos nul] at scanned
    cases scanned
  · rw [if_neg nul] at scanned
    exact (Except.ok.inj scanned).symm

variable (env site) in
/-- The identities of the signatures and hours of a file. -/
def fileIdentities (raw : Bytes) (text : String) : List (List String) :=
  scanIdentities env site (sourceIdOf env site (artifactHash env (normalizeNewlines raw))) text

/-- A signature of a scan and its hours are those of a turn of the loop, over its entries. -/
theorem exists_turn (scanned : scanLogRecords env site utf8Error (.ok raw) retain = .ok scan)
    (decoded : fromUtf8 (normalizeNewlines raw) = some text)
    (apart : TellsApart env.blake3 (fileIdentities env site raw text))
    {signature : LogNode ErrorSignaturePayload}
    (member : signature ∈ scan.records.filterMap LogRecord.asSignature) :
    ∃ sourceId, ∃ group ∈ signatureGroups (occurrencesOf env site text),
      signature = (signatureTurn env site sourceId group).signature ∧
      hoursOf scan.records signature.id = (signatureTurn env site sourceId group).buckets ∧
      signatureEntries env site text signature.id = keyEntries env text group.1 := by
  obtain rfl := scan_eq scanned decoded
  rw [signatures_scanText] at member
  obtain ⟨group, listed, rfl⟩ := List.mem_map.mp member
  exact ⟨_, group, listed, rfl, hoursOf_scanText apart listed, signatureEntries_eq apart listed⟩

/-- The signatures of a scan are those of the keys that have entries, with the entries, the hours and
the times of their turn. -/
theorem exists_key (scanned : scanLogRecords env site utf8Error (.ok raw) retain = .ok scan)
    (decoded : fromUtf8 (normalizeNewlines raw) = some text)
    (apart : TellsApart env.blake3 (fileIdentities env site raw text))
    {signature : LogNode ErrorSignaturePayload}
    (member : signature ∈ scan.records.filterMap LogRecord.asSignature) :
    ∃ sourceId key, keyEntries env text key ≠ [] ∧
      signatureEntries env site text signature.id = keyEntries env text key ∧
      signature.payload.occurrenceCount = (keyEntries env text key).length ∧
      hoursOf scan.records signature.id = (signatureTurn env site sourceId (key,
        (keyEntries env text key).map
          (occurrenceOf env site.transactionTime (txBucketOf env site)))).buckets ∧
      ∀ spanEnd, signature.payload.seenAt spanEnd = seen spanEnd
        ((keyEntries env text key).map
          (occurrenceOf env site.transactionTime (txBucketOf env site))) := by
  obtain ⟨sourceId, ⟨key, occurrences⟩, listed, rfl, hours, entries⟩ :=
    exists_turn scanned decoded apart member
  obtain ⟨nonempty, rfl⟩ := mem_signatureGroups_iff.mp listed
  refine ⟨sourceId, key, nonempty, entries, ?_, hours, fun spanEnd => ?_⟩
  · exact List.length_map _
  · cases spanEnd <;> rfl

end Files

/-! ### A scan -/

section Sample

/-- A time of the day of the log. -/
def sampleAt (hour : Fin 24) (minute second : Fin 60) : UtcDateTime :=
  UtcDateTime.atSecond 2026 1 2 hour minute second (by decide) (by decide) hour.isLt minute.isLt
    second.isLt.le

/-- When the log is scanned. -/
def sampleTx : UtcDateTime := sampleAt 3 30 5

/-- Three o'clock, which is five where it is two hours later. -/
def sampleThree : UtcDateTime := sampleAt 3 0 0

/-- Four o'clock. -/
def sampleFour : UtcDateTime := sampleAt 4 0 0

/-- The times of the log. -/
def sampleTimes : List UtcDateTime :=
  [sampleAt 1 2 3, sampleAt 2 0 0, sampleAt 1 40 0, sampleAt 2 10 0, sampleAt 3 0 0, sampleAt 1 41 0]

/-- A checksum in place of the hash. -/
def sampleHash (bytes : Bytes) : Vector UInt8 32 :=
  Vector.replicate 32 (bytes.foldl (fun sum byte => 7 * sum + byte) 0)

def sampleEnv : LogEnv where
  chrono := Chrono.ofTimes (sampleTx :: sampleTimes)
  valueFromStr _ := none
  blake3 := sampleHash
  rootStr := "/repo".toList

def sampleSite : ScanSite where
  sourceRelativePath := "app.log"
  repositoryId := "repo"
  transactionTime := "2026-01-02T03:30:05Z"

/-- Six warnings of one kind, in three hours and not in order, and one of another kind over two lines
and without a time. -/
def sampleLines : List String :=
  ["2026-01-02T01:02:03Z WARN lag", "2026-01-02T02:00:00Z WARN lag",
   "2026-01-02T01:40:00Z WARN lag", "2026-01-02T02:10:00Z WARN lag",
   "2026-01-02T03:00:00Z WARN lag", "2026-01-02T01:41:00Z WARN lag", "WARN full", "  at flush"]

def sampleText : String :=
  String.ofList ((sampleLines.map String.toList).flatMap fun line => line ++ ['\n'])

def sampleScan : LogScan :=
  scanText sampleEnv sampleSite (artifactHash sampleEnv (asBytes sampleText)) sampleText false

/-- A warning of the log. -/
def sampleWarning (message : String) (sourceLine : Nat) (timestamp : Option UtcDateTime) : LogEntry where
  severity := .warn
  message := message
  sourceLine := sourceLine
  timestamp := timestamp
  frames := []

/-- The entries of the log. -/
def sampleEntries : List LogEntry :=
  ((sampleLines.zip sampleTimes).zipIdx 1).map (fun stamped =>
    sampleWarning stamped.1.1 stamped.2 (some stamped.1.2)) ++
  [sampleWarning "WARN full\n  at flush" 7 none]

/-- What is evaluated of the log: its lines, its bytes, its entries, the time of the scan, and the
identities, which the checksum tells apart. One signature has six entries. -/
theorem sample_facts :
    (lines sampleText = sampleLines ∧
      normalizeNewlines (asBytes sampleText) = asBytes sampleText ∧ 0 ∉ asBytes sampleText) ∧
    entriesOf sampleEnv (detectFormat sampleEnv sampleText) sampleText = sampleEntries ∧
    (sampleEnv.chrono.parseFromRfc3339 sampleSite.transactionTime = some sampleTx ∧
      sampleSite.transactionTime = sampleTx.toRfc3339Opts .secs) ∧
    (∀ entry ∈ entriesOf sampleEnv (detectFormat sampleEnv sampleText) sampleText,
      0 ≤ (entry.instant sampleTx).year ∧ (entry.instant sampleTx).year ≤ 9999) ∧
    ((fileIdentities sampleEnv sampleSite (asBytes sampleText) sampleText).map fun parts =>
      sampleEnv.blake3 (identityBytes parts)).Nodup ∧
    (keyEntries sampleEnv sampleText ("warn", "<TS> WARN lag")).length = 6 := by
  have split : lines sampleText = sampleLines := by
    rw [sampleText, lines_flatMap (by decide), List.map_map]
    decide
  have entries : entriesOf sampleEnv (detectFormat sampleEnv sampleText) sampleText =
      sampleEntries := by
    have plain : detectFormat sampleEnv sampleText = formatPlainV1 := by
      rw [detectFormat, split]
      decide
    rw [plain, entriesOf, if_neg (by decide), plainEntries, split]
    decide
  have templates : (∀ line ∈ sampleLines.take 6,
      fingerprint sampleEnv line = ("<TS> WARN lag", false)) ∧
      fingerprint sampleEnv "WARN full\n  at flush" = ("WARN full\n  at flush", false) := by
    decide +kernel
  simp only [sampleLines, List.take_succ_cons, List.take_zero, List.forall_mem_cons] at templates
  rw [fileIdentities, scanIdentities, occurrencesOf, keyEntries, entries]
  refine ⟨⟨split, by decide +kernel⟩, rfl, by decide +kernel, by decide, ?_⟩
  -- The rest needs no more of the templates.
  simp only [sampleEntries, sampleLines, sampleTimes, sampleWarning, occurrenceOf, LogEntry.key,
    List.zip_cons_cons, List.zip_nil_right, List.zipIdx_cons, List.zipIdx_nil, List.map_cons,
    List.map_nil, List.cons_append, List.nil_append, List.filter_cons, List.filter_nil, templates]
  decide +kernel

/-- The bytes of the sample are its text. -/
theorem sample_decoded : fromUtf8 (normalizeNewlines (asBytes sampleText)) = some sampleText := by
  rw [sample_facts.1.2.1, fromUtf8_asBytes]

/-- The scan of the sample. -/
theorem sample_scanned :
    scanLogRecords sampleEnv sampleSite (fun _ => "") (.ok (asBytes sampleText)) false =
      .ok sampleScan := by
  have read : logText (fun _ => "") (asBytes sampleText) = .ok sampleText := by
    rw [logText, if_neg sample_facts.1.2.2, fromUtf8_asBytes]
  rw [scanLogRecords_ok, sample_facts.1.2.1, read, sampleScan, Except.map]

/-- The checksum tells the identities of the sample apart. -/
theorem sample_apart : TellsApart sampleEnv.blake3
    (fileIdentities sampleEnv sampleSite (asBytes sampleText) sampleText) :=
  tellsApart_of_nodup sample_facts.2.2.2.2.1

/-- The signature with six entries. -/
theorem sample_signature :
    ∃ signature, signature ∈ sampleScan.records.filterMap LogRecord.asSignature ∧
      (signatureEntries sampleEnv sampleSite sampleText signature.id).length = 6 := by
  have six := sample_facts.2.2.2.2.2
  have some : keyEntries sampleEnv sampleText ("warn", "<TS> WARN lag") ≠ [] := by
    intro none
    rw [none] at six
    cases six
  obtain ⟨occurrences, listed⟩ : ∃ occurrences, (("warn", "<TS> WARN lag"), occurrences) ∈
      signatureGroups (occurrencesOf sampleEnv sampleSite sampleText) := by
    simp only [mem_signatureGroups_iff]
    exact ⟨_, some, rfl⟩
  have apart := sample_apart
  rw [fileIdentities] at apart
  rw [sampleScan, signatures_scanText]
  refine ⟨_, List.mem_map_of_mem listed, ?_⟩
  exact (congrArg List.length (signatureEntries_eq apart listed)).trans six

end Sample

/-! ### What a scan says -/

section Scanned

variable {env : LogEnv} {site : ScanSite} {tx : UtcDateTime} {utf8Error : Bytes → String}
  {raw : Bytes} {text : String} {retain : Bool} {scan : LogScan}

/-- The counts of the signatures, and of the hours of each, are those of the entries. -/
theorem scanLogRecords_counts
    (scanned : scanLogRecords env site utf8Error (.ok raw) retain = .ok scan)
    (decoded : fromUtf8 (normalizeNewlines raw) = some text)
    (apart : TellsApart env.blake3 (fileIdentities env site raw text)) :
    ((scan.records.filterMap LogRecord.asSignature).map fun signature =>
        signature.payload.occurrenceCount).sum =
      (entriesOf env (detectFormat env text) text).length ∧
    ∀ signature ∈ scan.records.filterMap LogRecord.asSignature,
      signature.payload.occurrenceCount =
        (signatureEntries env site text signature.id).length ∧
      ((hoursOf scan.records signature.id).map fun bucket =>
        bucket.payload.occurrenceCount).sum = signature.payload.occurrenceCount := by
  constructor
  · obtain rfl := scan_eq scanned decoded
    rw [signatures_scanText, List.map_map]
    have counted := sum_signatureGroups (occurrencesOf env site text)
    rw [occurrencesOf, List.length_map] at counted
    exact counted
  · intro signature member
    obtain ⟨sourceId, key, -, entries, count, hours, -⟩ := exists_key scanned decoded apart member
    rw [hours, entries, sum_signatureTurn, sum_hourlyBuckets, List.length_map, count]
    exact ⟨rfl, rfl⟩

/-- The counts of the sample. -/
theorem sample_counts :
    ((sampleScan.records.filterMap LogRecord.asSignature).map fun signature =>
        signature.payload.occurrenceCount).sum =
      (entriesOf sampleEnv (detectFormat sampleEnv sampleText) sampleText).length ∧
    ∀ signature ∈ sampleScan.records.filterMap LogRecord.asSignature,
      signature.payload.occurrenceCount =
        (signatureEntries sampleEnv sampleSite sampleText signature.id).length ∧
      ((hoursOf sampleScan.records signature.id).map fun bucket =>
        bucket.payload.occurrenceCount).sum = signature.payload.occurrenceCount :=
  scanLogRecords_counts sample_scanned sample_decoded sample_apart

/-- Each hour of a signature holds the times of its entries in that hour, in order, and every entry
is in an hour. -/
theorem scanLogRecords_hours
    (valid : env.chrono.parseFromRfc3339 site.transactionTime = some tx)
    (scanned : scanLogRecords env site utf8Error (.ok raw) retain = .ok scan)
    (decoded : fromUtf8 (normalizeNewlines raw) = some text)
    (apart : TellsApart env.blake3 (fileIdentities env site raw text)) :
    ∀ signature ∈ scan.records.filterMap LogRecord.asSignature,
      (∀ bucket ∈ hoursOf scan.records signature.id, ∃ start times,
        IsHour tx (signatureEntries env site text signature.id) bucket.payload start times) ∧
      ((hoursOf scan.records signature.id).map fun bucket => bucket.payload.bucketStart).Nodup ∧
      ∀ entry ∈ signatureEntries env site text signature.id,
        ∃ bucket ∈ hoursOf scan.records signature.id, bucket.payload.bucketStart =
          (entry.instant tx).floorDatetime.toRfc3339Opts .secs := by
  intro signature member
  obtain ⟨sourceId, key, -, entries, -, hours, -⟩ := exists_key scanned decoded apart member
  rw [hours, entries, txBucketOf_eq valid, buckets_signatureTurn]
  refine ⟨?_, ?_, ?_⟩
  · intro bucket member
    obtain ⟨⟨start, kept⟩, hourly, rfl⟩ := List.mem_map.mp member
    exact isHour_of_mem valid hourly
  · rw [List.map_map]
    change ((hourlyBuckets _).toList.map Prod.fst).Nodup
    rw [Std.ExtTreeMap.map_fst_toList_eq_keys]
    exact Std.ExtTreeMap.nodup_keys
  · intro entry inside
    have filed : (entry.instant tx).floorDatetime.toRfc3339Opts .secs ∈
        ((keyEntries env text key).map (occurrenceOf env site.transactionTime
          (tx.floorDatetime.toRfc3339Opts .secs))).map Occurrence.bucketStart := by
      rw [← bucketStart_occurrenceOf entry]
      exact List.mem_map_of_mem (List.mem_map_of_mem inside)
    exact ⟨_, List.mem_map_of_mem (mem_hourlyBuckets_iff.mpr ⟨filed, rfl⟩), rfl⟩

/-- The hours of the signature that is seen six times. -/
theorem sample_hours : ∃ signature ∈ sampleScan.records.filterMap LogRecord.asSignature,
    (signatureEntries sampleEnv sampleSite sampleText signature.id).length = 6 ∧
    (∀ bucket ∈ hoursOf sampleScan.records signature.id, ∃ start times,
      IsHour sampleTx (signatureEntries sampleEnv sampleSite sampleText signature.id)
        bucket.payload start times) ∧
    ((hoursOf sampleScan.records signature.id).map fun bucket =>
      bucket.payload.bucketStart).Nodup ∧
    ∀ entry ∈ signatureEntries sampleEnv sampleSite sampleText signature.id,
      ∃ bucket ∈ hoursOf sampleScan.records signature.id, bucket.payload.bucketStart =
        (entry.instant sampleTx).floorDatetime.toRfc3339Opts .secs := by
  obtain ⟨signature, listed, six⟩ := sample_signature
  exact ⟨signature, listed, six,
    scanLogRecords_hours sample_facts.2.2.1.1 sample_scanned sample_decoded sample_apart
      signature listed⟩

/-- The times that a signature keeps stand for its first and its last entry exactly where the texts
of the times follow the times at that end. -/
theorem scanLogRecords_seen_iff
    (valid : env.chrono.parseFromRfc3339 site.transactionTime = some tx)
    (scanned : scanLogRecords env site utf8Error (.ok raw) retain = .ok scan)
    (decoded : fromUtf8 (normalizeNewlines raw) = some text)
    (apart : TellsApart env.blake3 (fileIdentities env site raw text)) :
    ∀ signature ∈ scan.records.filterMap LogRecord.asSignature,
      (IsOutermost env tx .first (signatureEntries env site text signature.id)
          signature.payload.firstSeen ↔
        TextFollows tx site.transactionTime .first
          (signatureEntries env site text signature.id)) ∧
      (IsOutermost env tx .last (signatureEntries env site text signature.id)
          signature.payload.lastSeen ↔
        TextFollows tx site.transactionTime .last
          (signatureEntries env site text signature.id)) := by
  intro signature member
  obtain ⟨sourceId, key, nonempty, entries, -, -, kept⟩ := exists_key scanned decoded apart member
  have first : signature.payload.firstSeen = _ := kept .first
  have last : signature.payload.lastSeen = _ := kept .last
  rw [entries, first, last]
  exact ⟨isOutermost_seen_iff .first _ valid nonempty, isOutermost_seen_iff .last _ valid nonempty⟩

/-- The equivalence at this signature, whose entries are out of order. -/
theorem sample_seen_iff : ∃ signature ∈ sampleScan.records.filterMap LogRecord.asSignature,
    (signatureEntries sampleEnv sampleSite sampleText signature.id).length = 6 ∧
    (IsOutermost sampleEnv sampleTx .first
        (signatureEntries sampleEnv sampleSite sampleText signature.id)
        signature.payload.firstSeen ↔
      TextFollows sampleTx sampleSite.transactionTime .first
        (signatureEntries sampleEnv sampleSite sampleText signature.id)) ∧
    (IsOutermost sampleEnv sampleTx .last
        (signatureEntries sampleEnv sampleSite sampleText signature.id)
        signature.payload.lastSeen ↔
      TextFollows sampleTx sampleSite.transactionTime .last
        (signatureEntries sampleEnv sampleSite sampleText signature.id)) := by
  obtain ⟨signature, listed, six⟩ := sample_signature
  exact ⟨signature, listed, six,
    scanLogRecords_seen_iff sample_facts.2.2.1.1 sample_scanned sample_decoded sample_apart
      signature listed⟩

/-- Where the transaction time is written as the times of the log are, all in four-digit years, a
signature keeps the times of its first and its last entry. -/
theorem scanLogRecords_seen (written : site.transactionTime = tx.toRfc3339Opts .secs)
    (years : ∀ entry ∈ entriesOf env (detectFormat env text) text,
      0 ≤ (entry.instant tx).year ∧ (entry.instant tx).year ≤ 9999)
    (scanned : scanLogRecords env site utf8Error (.ok raw) retain = .ok scan)
    (decoded : fromUtf8 (normalizeNewlines raw) = some text)
    (apart : TellsApart env.blake3 (fileIdentities env site raw text)) :
    ∀ signature ∈ scan.records.filterMap LogRecord.asSignature,
      IsOutermost env tx .first (signatureEntries env site text signature.id)
        signature.payload.firstSeen ∧
      IsOutermost env tx .last (signatureEntries env site text signature.id)
        signature.payload.lastSeen := by
  intro signature member
  obtain ⟨sourceId, key, nonempty, entries, -, -, kept⟩ := exists_key scanned decoded apart member
  have ofKey : ∀ entry ∈ keyEntries env text key,
      0 ≤ (entry.instant tx).year ∧ (entry.instant tx).year ≤ 9999 :=
    fun entry inside => years entry (List.mem_of_mem_filter inside)
  have first : signature.payload.firstSeen = _ := kept .first
  have last : signature.payload.lastSeen = _ := kept .last
  rw [entries, first, last]
  exact ⟨isOutermost_seen .first written ofKey nonempty,
    isOutermost_seen .last written ofKey nonempty⟩

/-- Its first and last times. -/
theorem sample_seen : ∃ signature ∈ sampleScan.records.filterMap LogRecord.asSignature,
    (signatureEntries sampleEnv sampleSite sampleText signature.id).length = 6 ∧
    IsOutermost sampleEnv sampleTx .first
        (signatureEntries sampleEnv sampleSite sampleText signature.id)
        signature.payload.firstSeen ∧
      IsOutermost sampleEnv sampleTx .last
        (signatureEntries sampleEnv sampleSite sampleText signature.id)
        signature.payload.lastSeen := by
  obtain ⟨signature, listed, six⟩ := sample_signature
  exact ⟨signature, listed, six,
    scanLogRecords_seen sample_facts.2.2.1.2 sample_facts.2.2.2.1 sample_scanned sample_decoded
      sample_apart signature listed⟩

end Scanned

end Egregore.LogGraph
