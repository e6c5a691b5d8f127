import Egregore.Query.TxDelta
import Mathlib.Tactic.Linarith

/-!
# Resuming the delta feed

A consumer calls `transactionDelta`, feeds `nextCursor` back and stops when it is up to date. It
gets every version after its first cursor once if and only if every page ends at an instant that
the text of the cursor holds exactly: a whole second of the years 0 to 9999. `deliversOnce_iff`
is over the whole feed, from any first cursor that can be read.
-/

namespace Egregore

open Base

/-- The instant without its fraction of a second. A leap second counts as one. -/
def Instant.wholeSecond (time : Instant) : Instant :=
  toLex ((ofLex time).1, (ofLex time).2 / 10 ^ 9 * 10 ^ 9)

/-- The instants whose year in UTC has four digits: seconds from the start of the year 0 to the end
of the year 9999. -/
def Instant.FourDigitYear (time : Instant) : Prop :=
  -62167219200 ≤ (ofLex time).1 ∧ (ofLex time).1 < 253402300800

instance (time : Instant) : Decidable time.FourDigitYear := inferInstanceAs (Decidable (_ ∧ _))

/-- The instants that the text of a cursor holds exactly. -/
def Instant.Citable (time : Instant) : Prop :=
  time.FourDigitYear ∧ 10 ^ 9 ∣ (ofLex time).2

instance (time : Instant) : Decidable time.Citable := inferInstanceAs (Decidable (_ ∧ _))

/-- Cutting to the second moves no time on. -/
theorem Instant.wholeSecond_le (time : Instant) : time.wholeSecond ≤ time := by
  rw [Prod.Lex.le_iff]
  exact Or.inr ⟨rfl, Nat.div_mul_le_self _ _⟩

/-- It keeps a time without a fraction. -/
theorem Instant.wholeSecond_eq_self_iff (time : Instant) :
    time.wholeSecond = time ↔ 10 ^ 9 ∣ (ofLex time).2 := by
  constructor
  · intro same
    have nanos : (ofLex time).2 / 10 ^ 9 * 10 ^ 9 = (ofLex time).2 :=
      congrArg (fun instant => (ofLex instant).2) same
    exact Dvd.intro_left _ nanos
  · intro whole
    exact congrArg toLex (Prod.ext rfl (Nat.div_mul_cancel whole))

/-- What `chrono` writes without a fraction of a second it reads back as the whole second. A year
of more than four digits or below zero is written with a sign, which RFC 3339 does not allow. -/
structure Chrono.WritesSeconds (chrono : Chrono) : Prop where
  readsBack : ∀ text time, chrono.parseFromRfc3339 text = .ok time → time.FourDigitYear →
    chrono.parseFromRfc3339 (chrono.toRfc3339Secs time) = .ok time.wholeSecond
  signed : ∀ text time, chrono.parseFromRfc3339 text = .ok time → ¬ time.FourDigitYear →
    ∃ fault, chrono.parseFromRfc3339 (chrono.toRfc3339Secs time) = .error fault

/-- What the text of a cursor says, if it can be read. -/
def Chrono.readCursor (chrono : Chrono) (time : Instant) : Option Instant :=
  (chrono.parseFromRfc3339 (chrono.toRfc3339Secs time)).toOption

section

variable {chrono : Chrono} (seconds : chrono.WritesSeconds) {text : String} {time : Instant}
  (read : chrono.parseFromRfc3339 text = .ok time)

include seconds read

/-- So a cursor reads back as a time that is not later. -/
theorem Chrono.WritesSeconds.readCursor_le {next : Instant}
    (cited : chrono.readCursor time = some next) : next ≤ time := by
  by_cases year : time.FourDigitYear
  · rw [readCursor, seconds.readsBack text time read year, Except.toOption,
      Option.some.injEq] at cited
    exact cited ▸ time.wholeSecond_le
  · obtain ⟨fault, unread⟩ := seconds.signed text time read year
    rw [readCursor, unread] at cited
    simp [Except.toOption] at cited

/-- It reads back as the same time when that can be cited. -/
theorem Chrono.WritesSeconds.readCursor_eq_some_iff :
    chrono.readCursor time = some time ↔ time.Citable := by
  by_cases year : time.FourDigitYear
  · rw [readCursor, seconds.readsBack text time read year, Except.toOption, Option.some.injEq,
      Instant.wholeSecond_eq_self_iff]
    exact ⟨fun whole => ⟨year, whole⟩, And.right⟩
  · obtain ⟨fault, unread⟩ := seconds.signed text time read year
    rw [readCursor, unread]
    simp [Except.toOption, Instant.Citable, year]

end

/-- The versions in scope that carry an instant. -/
def stampedVersions (chrono : Chrono) (ownerOf : String → Option String)
    (records : List GraphRecord) (wanted : List String) (repoId : Option String) :
    List TxDeltaItem :=
  (records.map (scanRecord chrono ownerOf wanted repoId)).filterMap TxDeltaScan.item?

/-- The order of the rows refines their times. -/
theorem deltaBefore_refines : RefinesTime TxDeltaItem.transactionTime deltaBefore where
  total item other := by
    rcases lt_trichotomy item.transactionTime other.transactionTime with less | same | greater
    · exact Or.inl (Or.inl less)
    · by_cases before : byteOrder item.record.id other.record.id = .gt
      · refine Or.inr (Or.inr ⟨same.symm, ?_⟩)
        rw [Std.OrientedCmp.gt_iff_lt] at before
        simp [before]
      · exact Or.inl (Or.inr ⟨same, before⟩)
    · exact Or.inr (Or.inl greater)
  trans item other later first second := by
    rcases first with less | ⟨same, before⟩ <;> rcases second with less' | ⟨same', before'⟩
    · exact Or.inl (lt_trans less less')
    · exact Or.inl (same' ▸ less)
    · exact Or.inl (same ▸ less')
    · refine Or.inr ⟨same.trans same', ?_⟩
      rw [Ne, ← Ordering.isLE_iff_ne_gt] at *
      exact Std.TransCmp.isLE_trans before before'
  le item other before := before.elim le_of_lt fun tie => le_of_eq tie.1
  of_lt _ _ less := Or.inl less

/-- An item stands at the instant that its record's handle reads as. -/
theorem scanRecord_parsed {chrono : Chrono} {ownerOf : String → Option String}
    {wanted : List String} {repoId : Option String} {record : GraphRecord} {item : TxDeltaItem}
    (stamped : scanRecord chrono ownerOf wanted repoId record = .stamped item) :
    ∃ text, chrono.parseFromRfc3339 text = .ok item.transactionTime := by
  unfold scanRecord at stamped
  split at stamped
  · cases stamped
  · cases record with
    | edge edge => cases stamped
    | tombstone tombstone => cases stamped
    | node node =>
        simp only at stamped
        split at stamped
        · cases stamped
        · split at stamped
          · cases stamped
          · rename_i text _
            split at stamped
            · cases stamped
            · rename_i time read
              cases stamped
              exact ⟨text, read⟩

/-- The time of a row was parsed from its text. -/
theorem stampedVersions_parsed {chrono : Chrono} {ownerOf : String → Option String}
    {records : List GraphRecord} {wanted : List String} {repoId : Option String}
    {item : TxDeltaItem} (member : item ∈ stampedVersions chrono ownerOf records wanted repoId) :
    ∃ text, chrono.parseFromRfc3339 text = .ok item.transactionTime := by
  obtain ⟨scan, inScans, isItem⟩ := List.mem_filterMap.mp member
  obtain ⟨record, -, rfl⟩ := List.mem_map.mp inScans
  cases scan : scanRecord chrono ownerOf wanted repoId record with
  | stamped other =>
      rw [scan] at isItem
      obtain rfl := Option.some.inj isItem
      exact scanRecord_parsed scan
  | _ => simp [scan, TxDeltaScan.item?] at isItem

/-- A consumer calls for what is after its cursor until it is up to date. -/
inductive DeltaFeed (call : String → Except TxDeltaError TxDeltaResult) :
    String → List TxDeltaItem → Prop
  | upToDate {cursor result} (answered : call cursor = .ok result)
      (done : result.upToDate = true) : DeltaFeed call cursor []
  | more {cursor result rows} (answered : call cursor = .ok result)
      (more : result.upToDate = false) (rest : DeltaFeed call result.nextCursor rows) :
      DeltaFeed call cursor (result.items ++ rows)

section

variable (chrono : Chrono) (ownerOf : String → Option String) (records : List GraphRecord)
  (domains : List String) (repoId : Option String) (limit : Nat)

/-- The call is up to date after finitely many pages, and the rows are the versions in scope after
the start, each once, in the order of the feed. -/
def DeliversOnce (wanted : List String) (cursor : String) (start : Instant) : Prop :=
  ∃ rows,
    DeltaFeed (fun txAfter => transactionDelta chrono ownerOf records txAfter domains repoId limit)
      cursor rows ∧
    rows.Perm ((stampedVersions chrono ownerOf records wanted repoId).filter fun item =>
      start < item.transactionTime) ∧
    rows.Pairwise deltaBefore

variable {chrono ownerOf records domains repoId limit}

variable (ownerOf records repoId) in
/-- One call within the bounds. -/
theorem transactionDelta_eq {wanted : List String} {cursor : String} {start : Instant}
    (positive : 0 < limit) (bounded : limit ≤ sinceMaxLimit)
    (read : chrono.parseFromRfc3339 cursor = .ok start)
    (known : wantedDomains domains = .ok wanted) :
    ∃ result,
      transactionDelta chrono ownerOf records cursor domains repoId limit = .ok result ∧
      result.items = pageAfter TxDeltaItem.transactionTime limit
        (stampedVersions chrono ownerOf records wanted repoId) deltaBefore start ∧
      (result.upToDate = result.items.isEmpty) ∧
      ∀ item, result.items.getLast? = some item →
        result.nextCursor = chrono.toRfc3339Secs item.transactionTime := by
  have inBounds : ¬ (limit = 0 ∨ limit > sinceMaxLimit) := by omega
  simp only [transactionDelta, inBounds, if_false, read, known]
  refine ⟨_, rfl, rfl, rfl, fun item isLast => ?_⟩
  simp only [isLast, Option.elim]

variable (ownerOf records domains repoId limit) in

/-- A cursor that cannot be read is refused. -/
theorem transactionDelta_unread {cursor fault : String}
    (unread : chrono.parseFromRfc3339 cursor = .error fault) :
    ∃ error, transactionDelta chrono ownerOf records cursor domains repoId limit = .error error := by
  simp only [transactionDelta, unread]
  split
  · exact ⟨_, rfl⟩
  · exact ⟨_, rfl⟩

/-- A feed starts at a cursor that can be read, with an admissible limit. -/
theorem DeltaFeed.read {cursor : String} {rows : List TxDeltaItem}
    (feed : DeltaFeed (fun txAfter =>
      transactionDelta chrono ownerOf records txAfter domains repoId limit) cursor rows) :
    limit ≤ sinceMaxLimit ∧ ∃ start, chrono.parseFromRfc3339 cursor = .ok start := by
  have answered : ∃ result,
      transactionDelta chrono ownerOf records cursor domains repoId limit = .ok result := by
    cases feed with
    | upToDate answered _ => exact ⟨_, answered⟩
    | more answered _ _ => exact ⟨_, answered⟩
  obtain ⟨result, answered⟩ := answered
  constructor
  · by_contra beyond
    have outside : limit = 0 ∨ limit > sinceMaxLimit := Or.inr (by omega)
    simp [transactionDelta, outside] at answered
  · cases read : chrono.parseFromRfc3339 cursor with
    | ok start => exact ⟨start, rfl⟩
    | error fault =>
        obtain ⟨error, unread⟩ := transactionDelta_unread ownerOf records domains repoId limit read
        exact absurd (answered.symm.trans unread) (by simp)

/-- Calls over the texts of cursors read page after page. -/
theorem deltaFeed_iff {wanted : List String} {cursor : String} {start : Instant}
    {rows : List TxDeltaItem} (positive : 0 < limit) (bounded : limit ≤ sinceMaxLimit)
    (read : chrono.parseFromRfc3339 cursor = .ok start)
    (known : wantedDomains domains = .ok wanted) :
    DeltaFeed (fun txAfter => transactionDelta chrono ownerOf records txAfter domains repoId limit)
        cursor rows ↔
      Feed TxDeltaItem.transactionTime limit (stampedVersions chrono ownerOf records wanted repoId)
        deltaBefore chrono.readCursor start rows := by
  constructor
  · intro feed
    induction feed generalizing start with
    | @upToDate cursor result answered done =>
        obtain ⟨result', answered', items, upToDate, -⟩ :=
          transactionDelta_eq ownerOf records repoId positive bounded read known
        obtain rfl : result = result' := Except.ok.inj (answered.symm.trans answered')
        refine .done ?_
        by_contra more
        obtain ⟨last, -, -, isLast⟩ := pageAfter_eq limit deltaBefore_refines more
        rw [upToDate, List.isEmpty_iff, items] at done
        simp [done] at isLast
    | @more cursor result rows answered more rest ih =>
        obtain ⟨result', answered', items, upToDate, next⟩ :=
          transactionDelta_eq ownerOf records repoId positive bounded read known
        obtain rfl : result = result' := Except.ok.inj (answered.symm.trans answered')
        rw [upToDate, List.isEmpty_eq_false_iff] at more
        obtain ⟨item, isLast⟩ := Option.isSome_iff_exists.mp (List.getLast?_isSome.mpr more)
        obtain ⟨-, start', read'⟩ := rest.read
        rw [items]
        refine Feed.page (?_ : _ = some item.transactionTime) (?_ : _ = some start') (ih read')
        · rw [← items, isLast, Option.map_some]
        · rw [Chrono.readCursor, ← next item isLast, read', Except.toOption]
  · intro feed
    induction feed generalizing cursor with
    | @done start nothing =>
        obtain ⟨result, answered, items, upToDate, -⟩ :=
          transactionDelta_eq ownerOf records repoId positive bounded read known
        refine .upToDate answered ?_
        rw [upToDate, items, pageAfter, nothing]
        rfl
    | @page start last next rows isLast marked rest ih =>
        obtain ⟨result, answered, items, upToDate, nextCursor⟩ :=
          transactionDelta_eq ownerOf records repoId positive bounded read known
        rw [← items] at isLast ⊢
        obtain ⟨item, isLast', rfl⟩ := Option.map_eq_some_iff.mp isLast
        refine .more answered ?_ (ih ?_)
        · rw [upToDate, List.isEmpty_eq_false_iff]
          exact List.ne_nil_of_mem (List.mem_of_getLast? isLast')
        · rw [nextCursor item isLast']
          revert marked
          unfold Chrono.readCursor
          cases chrono.parseFromRfc3339 (chrono.toRfc3339Secs item.transactionTime) with
          | ok time => simp [Except.toOption]
          | error fault => simp [Except.toOption]

/-- The feed delivers once if and only if the limit is accepted and a reader of whole pages, whose
cursors are what the text says, reads once. -/
theorem deliversOnce_iff_readOnce {wanted : List String} {cursor : String} {start : Instant}
    (positive : 0 < limit) (read : chrono.parseFromRfc3339 cursor = .ok start)
    (known : wantedDomains domains = .ok wanted) :
    DeliversOnce chrono ownerOf records domains repoId limit wanted cursor start ↔
      limit ≤ sinceMaxLimit ∧
        ReadOnce TxDeltaItem.transactionTime limit
          (stampedVersions chrono ownerOf records wanted repoId) deltaBefore chrono.readCursor
          start := by
  constructor
  · rintro ⟨rows, feed, all, sorted⟩
    have bounded := feed.read.1
    exact ⟨bounded, rows, (deltaFeed_iff positive bounded read known).mp feed, all, sorted⟩
  · rintro ⟨bounded, rows, feed, all, sorted⟩
    exact ⟨rows, (deltaFeed_iff positive bounded read known).mpr feed, all, sorted⟩

/-- The cursor of a row is not after it. -/
theorem stampedVersions_cursor_le (seconds : chrono.WritesSeconds) {wanted : List String} :
    ∀ item ∈ stampedVersions chrono ownerOf records wanted repoId, ∀ next,
      chrono.readCursor item.transactionTime = some next → next ≤ item.transactionTime := by
  intro item member next cited
  obtain ⟨text, read⟩ := stampedVersions_parsed member
  exact seconds.readCursor_le read cited

/-- The feed delivers once if and only if the limit is accepted and every page ends at an instant
that the text of a cursor holds. -/
theorem deliversOnce_iff {wanted : List String} {cursor : String} {start : Instant}
    (seconds : chrono.WritesSeconds) (positive : 0 < limit)
    (read : chrono.parseFromRfc3339 cursor = .ok start)
    (known : wantedDomains domains = .ok wanted) :
    DeliversOnce chrono ownerOf records domains repoId limit wanted cursor start ↔
      limit ≤ sinceMaxLimit ∧
        ∀ last, ReachedEnd TxDeltaItem.transactionTime limit
          (stampedVersions chrono ownerOf records wanted repoId) start last → last.Citable := by
  rw [deliversOnce_iff_readOnce positive read known,
    readOnce_iff deltaBefore_refines (stampedVersions_cursor_le seconds)]
  refine and_congr_right fun _ => forall_congr' fun last => imp_congr_right fun reached => ?_
  obtain ⟨item, member, rfl⟩ := reached.occurs
  obtain ⟨text, read'⟩ := stampedVersions_parsed member
  exact seconds.readCursor_eq_some_iff read'

end

/-- What `chrono` makes of three instants. -/
def newYearChrono : Chrono where
  parseFromRfc3339 text :=
    if text = "2025-12-31T00:00:00Z" then .ok (toLex (1767139200, 0))
    else if text = "2026-01-01T00:00:00Z" then .ok (toLex (1767225600, 0))
    else if text = "2026-01-01T00:00:00.500Z" then .ok (toLex (1767225600, 500000000))
    else .error "input contains invalid characters"
  toRfc3339Secs time :=
    if (ofLex time).1 = 1767139200 then "2025-12-31T00:00:00Z" else "2026-01-01T00:00:00Z"

/-- One version, half a second into the year. -/
def halfSecondVersion : GraphRecord :=
  .node {
    id := "observation"
    kind := .observation
    schemaVersion := 1
    rest := [("transaction_time", "2026-01-01T00:00:00.500Z")] }

/-- The sample clock writes whole seconds. -/
theorem newYearChrono_writesSeconds : newYearChrono.WritesSeconds := by
  have instants : ∀ text time, newYearChrono.parseFromRfc3339 text = .ok time →
      time = toLex (1767139200, 0) ∨ time = toLex (1767225600, 0) ∨
        time = toLex (1767225600, 500000000) := by
    intro text time read
    simp only [newYearChrono] at read
    split_ifs at read <;> simp_all
  constructor
  · intro text time read _
    rcases instants text time read with rfl | rfl | rfl <;> decide
  · intro text time read signed
    rcases instants text time read with rfl | rfl | rfl <;> exact absurd (by decide) signed

/-- The cursor of the only page reads as the start of the year, before the version on the page. -/
theorem halfSecondVersion_not_once :
    ¬ DeliversOnce newYearChrono (fun _ => none) [halfSecondVersion] [] none 500 []
      "2025-12-31T00:00:00Z" (toLex (1767139200, 0)) := by
  intro once
  have known : wantedDomains [] = .ok [] := rfl
  have read : newYearChrono.parseFromRfc3339 "2025-12-31T00:00:00Z" =
      .ok (toLex (1767139200, 0)) := by decide
  have pages := ((deliversOnce_iff_readOnce (by decide) read known).mp once).2
  have versions : (itemsAfter TxDeltaItem.transactionTime
      (stampedVersions newYearChrono (fun _ => none) [halfSecondVersion] [] none)
      (toLex (1767139200, 0))).map TxDeltaItem.transactionTime =
        [toLex (1767225600, 500000000)] := by decide
  have ends : PageEnd TxDeltaItem.transactionTime 500
      (itemsAfter TxDeltaItem.transactionTime
        (stampedVersions newYearChrono (fun _ => none) [halfSecondVersion] [] none)
        (toLex (1767139200, 0))) (toLex (1767225600, 500000000)) := by
    obtain ⟨item, only, time⟩ := List.map_eq_singleton_iff.mp versions
    rw [only]
    refine ⟨⟨item, List.mem_singleton_self _, time⟩, Or.inl ?_, ?_⟩
    · exact Nat.le_trans List.countP_le_length (by simp)
    · intro other member later
      rw [List.mem_singleton.mp member, time] at later
      exact absurd later (lt_irrefl _)
  have cited := (pages.step deltaBefore_refines
    (stampedVersions_cursor_le newYearChrono_writesSeconds) ends).1
  exact absurd cited (by decide)

/-- The equivalence at a version written at half a second. -/
theorem halfSecondVersion_once_iff :
    DeliversOnce newYearChrono (fun _ => none) [halfSecondVersion] [] none 500 []
        "2025-12-31T00:00:00Z" (toLex (1767139200, 0)) ↔
      500 ≤ sinceMaxLimit ∧
        ∀ last, ReachedEnd TxDeltaItem.transactionTime 500
          (stampedVersions newYearChrono (fun _ => none) [halfSecondVersion] [] none)
          (toLex (1767139200, 0)) last → last.Citable :=
  deliversOnce_iff newYearChrono_writesSeconds (by decide) (by decide) rfl

end Egregore
