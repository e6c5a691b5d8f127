import Egregore.Base.Saturation
import Egregore.Query.RangeDeltas
import Mathlib.Data.List.Sort

/-!
# The commit that a range row names

A row names the newest commit of the range at which its class shows against the parents. That
commit led to the head, unless it lies on a line of history whose result was discarded:
`rangeDeltas_introduce_iff`.
-/

namespace Egregore

open Base

/-! ## The newest transition -/

section Newest

variable (order : CommitOrder)

/-- A commit is newer than another: by rank, then by SHA. -/
def Newer (sha other : String) : Prop :=
  order.rankAt other < order.rankAt sha ∨
    order.rankAt other = order.rankAt sha ∧ byteOrder other sha = .lt

variable {order}

/-- A commit is sorted before the older ones. -/
theorem newerFirst_iff {sha other : String} :
    newerFirst order sha other ↔ Newer order sha other ∨ sha = other := by
  unfold newerFirst Newer
  rcases lt_trichotomy (order.rankAt other) (order.rankAt sha) with less | same | more
  · simp [compare_lt_iff_lt.mpr less, less]
  · rw [same, compare_eq_iff_eq.mpr rfl, Ordering.eq_then, lt_self_iff_false, false_or,
      eq_self_iff_true, true_and]
    cases cmp : byteOrder other sha with
    | lt => simp
    | eq => simp [byteOrder_eq_iff.mp cmp]
    | gt =>
        have differ : sha ≠ other := by
          rintro rfl
          exact absurd (cmp.symm.trans (byteOrder_eq_iff.mpr rfl)) (by decide)
        simp [differ]
  · have apart : sha ≠ other := fun same => absurd (same ▸ more) (lt_irrefl _)
    simp [compare_gt_iff_gt.mpr more, Nat.lt_asymm more, Nat.ne_of_gt more, apart]

/-- Being newer is transitive. -/
theorem Newer.trans {first second third : String} (newer : Newer order first second)
    (newer' : Newer order second third) : Newer order first third := by
  rcases newer with less | ⟨same, before⟩
  · rcases newer' with less' | ⟨same', -⟩
    · exact .inl (less'.trans less)
    · exact .inl (same' ▸ less)
  · rcases newer' with less' | ⟨same', before'⟩
    · exact .inl (same ▸ less')
    · exact .inr ⟨same'.trans same, Std.TransCmp.lt_trans before' before⟩

/-- No commit is newer than itself. -/
theorem Newer.irrefl (sha : String) : ¬ Newer order sha sha := by
  rintro (less | ⟨-, before⟩)
  · exact lt_irrefl _ less
  · exact absurd (before.symm.trans (byteOrder_eq_iff.mpr rfl)) (by decide)

instance : Std.Total (newerFirst order) where
  total sha other := by
    rw [newerFirst_iff, newerFirst_iff]
    rcases lt_trichotomy (order.rankAt other) (order.rankAt sha) with less | same | more
    · exact .inl (.inl (.inl less))
    · cases cmp : byteOrder other sha with
      | lt => exact .inl (.inl (.inr ⟨same, cmp⟩))
      | eq => exact .inl (.inr (byteOrder_eq_iff.mp cmp).symm)
      | gt => exact .inr (.inl (.inr ⟨same.symm, Std.OrientedCmp.lt_of_gt cmp⟩))
    · exact .inr (.inl (.inl more))

instance : IsTrans String (newerFirst order) where
  trans first second third newer newer' := by
    rw [newerFirst_iff] at newer newer' ⊢
    rcases newer with newer | rfl
    · rcases newer' with newer' | rfl
      · exact .inl (newer.trans newer')
      · exact .inl newer
    · exact newer'

/-- The first hit of a list of commits, newest first, is the newest one. -/
theorem find?_newest {commits : List String} (sorted : commits.Pairwise (newerFirst order))
    {shows : String → Bool} {sha : String} :
    commits.find? shows = some sha ↔ sha ∈ commits ∧ shows sha ∧
      ∀ other ∈ commits, shows other → Newer order sha other ∨ sha = other := by
  induction commits with
  | nil => simp
  | cons head commits ih =>
      obtain ⟨below, sorted'⟩ := List.pairwise_cons.mp sorted
      cases hit : shows head with
      | true =>
          rw [List.find?_cons_of_pos hit, Option.some.injEq]
          constructor
          · rintro rfl
            refine ⟨List.mem_cons_self, hit, fun other member _ => ?_⟩
            rcases List.mem_cons.mp member with rfl | later
            · exact .inr rfl
            · exact newerFirst_iff.mp (below other later)
          · rintro ⟨member, -, newest⟩
            rcases List.mem_cons.mp member with rfl | later
            · rfl
            · rcases newerFirst_iff.mp (below sha later) with newer | same
              · rcases newest head List.mem_cons_self hit with newer' | same
                · exact absurd (newer.trans newer') (Newer.irrefl head)
                · exact same.symm
              · exact same
      | false =>
          rw [List.find?_cons_of_neg (by simp [hit]), ih sorted']
          constructor
          · rintro ⟨member, isHit, newest⟩
            refine ⟨List.mem_cons_of_mem _ member, isHit, fun other member' isHit' => ?_⟩
            rcases List.mem_cons.mp member' with rfl | later
            · rw [hit] at isHit'
              cases isHit'
            · exact newest other later isHit'
          · rintro ⟨member, isHit, newest⟩
            rcases List.mem_cons.mp member with rfl | later
            · rw [hit] at isHit
              cases isHit
            · exact ⟨later, isHit, fun other member' => newest other (.tail _ member')⟩

end Newest

/-! ## Ranges of a history -/

section Ranges

variable {toLowercase : String → String} {records : List GraphRecord} {inScope : String → Bool}

/-- An ancestor of the head that is none of the base. -/
def InRange (range : ResolvedCommitRange) (sha : String) : Prop :=
  Reaches (fun commit => range.parentMap.getD commit []) range.headSha sha ∧
    ¬ Reaches (fun commit => range.parentMap.getD commit []) range.baseSha sha

/-- The reachable commits are the ancestors, the start included. -/
theorem mem_reachableCommits {parentMap : StrMap (List String)} {startSha sha : String} :
    sha ∈ reachableCommits parentMap startSha ↔
      Reaches (fun commit => parentMap.getD commit []) startSha sha := by
  apply mem_walkFresh_iff
  intro commit unknown
  rw [Std.ExtTreeMap.mem_keys] at unknown
  exact Std.ExtTreeMap.getD_eq_fallback unknown

/-- A resolved range lists its commits, newest first. -/
structure RangeLists (records : List GraphRecord) (range : ResolvedCommitRange) : Prop where
  members : ∀ sha, sha ∈ range.rangeDesc ↔ InRange range sha
  sorted : range.rangeDesc.Pairwise (newerFirst (CommitOrder.build records))

/-- A resolved range lists its commits, the newest first. -/
theorem rangeLists_of_resolved {basePrefix headPrefix : String} {range : ResolvedCommitRange}
    (resolved : resolveCommitRange toLowercase records inScope basePrefix headPrefix =
      .ok range) : RangeLists records range := by
  unfold resolveCommitRange at resolved
  split at resolved
  · cases resolved
  · split at resolved
    · cases resolved
    · cases resolved
    · next baseSha headSha _ _ =>
        simp only at resolved
        split at resolved
        · cases resolved
        · split at resolved
          · split at resolved <;> cases resolved
          · cases resolved
            refine ⟨fun sha => ?_, List.pairwise_insertionSort _ _⟩
            rw [(List.perm_insertionSort _ _).mem_iff, Std.ExtTreeSet.mem_toList,
              mem_foldl_insert, List.mem_filter, mem_reachableCommits, decide_eq_true_eq,
              mem_reachableCommits]
            simp [InRange]

variable {range : ResolvedCommitRange} {perCommit : StrMap NodeRecord}
  {change : RangeDeltaClass}

/-- The commit a row names is the newest transition in the range. -/
theorem introducing_eq_some_iff (lists : RangeLists records range) {sha : String} :
    range.introducing perCommit change NodeRecord.summary = some sha ↔
      InRange range sha ∧ range.transition perCommit change NodeRecord.summary sha ∧
        ∀ other, InRange range other →
          range.transition perCommit change NodeRecord.summary other →
          Newer (CommitOrder.build records) sha other ∨ sha = other := by
  rw [ResolvedCommitRange.introducing, find?_newest lists.sorted]
  simp only [lists.members]

end Ranges

/-! ## What leads to the head -/

section Kept

/-- A commit has the state of the record that the head shows, by the class of its row. -/
def ShowsHead (range : ResolvedCommitRange) (perCommit : StrMap NodeRecord) (sha : String) :
    RangeDeltaClass → Prop
  | .added => sha ∈ perCommit
  | .removed => sha ∉ perCommit
  | .modified => ∃ snapshot head, perCommit[sha]? = some snapshot ∧
      perCommit[range.headSha]? = some head ∧ snapshot.summary = head.summary

/-- A chain of child commits leads to the head, in the range, and every commit on it has the
state that the head shows. -/
inductive KeptToHead (range : ResolvedCommitRange) (perCommit : StrMap NodeRecord)
    (change : RangeDeltaClass) : String → Prop where
  | head : InRange range range.headSha → ShowsHead range perCommit range.headSha change →
      KeptToHead range perCommit change range.headSha
  | parent {child sha : String} : KeptToHead range perCommit change child →
      sha ∈ range.parentMap.getD child [] → InRange range sha →
      ShowsHead range perCommit sha change → KeptToHead range perCommit change sha

/-- What was kept to the head shows there. -/
theorem KeptToHead.shows {range : ResolvedCommitRange} {perCommit : StrMap NodeRecord}
    {change : RangeDeltaClass} {sha : String} (kept : KeptToHead range perCommit change sha) :
    ShowsHead range perCommit sha change := by
  cases kept with
  | head _ shows => exact shows
  | parent _ _ _ shows => exact shows

/-- Every transition of the range whose result was discarded is older than one that led to the
head. -/
def DiscardedAreOlder (records : List GraphRecord) (range : ResolvedCommitRange)
    (perCommit : StrMap NodeRecord) (change : RangeDeltaClass) : Prop :=
  ∀ sha, InRange range sha → range.transition perCommit change NodeRecord.summary sha →
    ¬ KeptToHead range perCommit change sha →
    ∃ kept, InRange range kept ∧ range.transition perCommit change NodeRecord.summary kept ∧
      KeptToHead range perCommit change kept ∧ Newer (CommitOrder.build records) kept sha

variable {records : List GraphRecord} {range : ResolvedCommitRange}
  {perCommit : StrMap NodeRecord} {change : RangeDeltaClass}

/-- The commit that is found led to the head exactly when no discarded transition is newest. -/
theorem introducing_kept_iff (lists : RangeLists records range) :
    (∀ sha, range.introducing perCommit change NodeRecord.summary = some sha →
        KeptToHead range perCommit change sha) ↔
      DiscardedAreOlder records range perCommit change := by
  constructor
  · intro kept sha inside shows discarded
    cases found : range.introducing perCommit change NodeRecord.summary with
    | none =>
        rw [ResolvedCommitRange.introducing, List.find?_eq_none] at found
        exact absurd shows (found sha ((lists.members sha).mpr inside))
    | some newest =>
        obtain ⟨inside', shows', above⟩ := (introducing_eq_some_iff lists).mp found
        have kept_ := kept newest found
        rcases above sha inside shows with newer | rfl
        · exact ⟨newest, inside', shows', kept_, newer⟩
        · exact absurd kept_ discarded
  · intro older sha found
    obtain ⟨inside, shows, above⟩ := (introducing_eq_some_iff lists).mp found
    by_contra discarded
    obtain ⟨kept, inside', shows', kept_, newer⟩ := older sha inside shows discarded
    rcases above kept inside' shows' with newer' | rfl
    · exact Newer.irrefl _ (newer.trans newer')
    · exact discarded kept_

end Kept

/-! ## Rows -/

section Rows

variable {records : List GraphRecord} {inScope : String → Bool}

/-- The snapshots that rows of symbols, or of files, come from. -/
def rangeSnapshots (records : List GraphRecord) (inScope : String → Bool) (isSymbol : Bool) :
    StrMap (StrMap NodeRecord) :=
  temporalSnapshotIndex records (if isSymbol then .symbol else .file) inScope

/-- The rows of symbols, or of files, of one class. -/
def RangeDeltas.rows (deltas : RangeDeltas) : Bool → RangeDeltaClass → List RangeDeltaItem
  | true, .added => deltas.addedSymbols
  | true, .removed => deltas.removedSymbols
  | true, .modified => deltas.modifiedSymbols
  | false, .added => deltas.addedFiles
  | false, .removed => deltas.removedFiles
  | false, .modified => deltas.modifiedFiles

/-- The snapshots of a record carry its ID. -/
theorem id_of_snapshot {kind : NodeKind} {id sha : String} {perCommit : StrMap NodeRecord}
    {node : NodeRecord}
    (known : (temporalSnapshotIndex records kind inScope)[id]? = some perCommit)
    (snapshot : perCommit[sha]? = some node) : node.id = id := by
  unfold temporalSnapshotIndex at known
  generalize nodesOf records = nodes at known
  induction nodes using List.reverseRecOn generalizing id perCommit with
  | nil => simp at known
  | append_singleton nodes last ih =>
      rw [List.foldl_append, List.foldl_cons, List.foldl_nil, insertSnapshot] at known
      split at known
      · split at known
        · rw [getElem?_insert_eq] at known
          split at known
          · next same =>
              obtain rfl := Option.some.inj known
              rw [getElem?_insert_eq] at snapshot
              split at snapshot
              · exact Option.some.inj snapshot ▸ same
              · rw [Std.ExtTreeMap.getD_eq_getD_getElem?] at snapshot
                cases earlier : (nodes.foldl (insertSnapshot kind inScope) ∅)[last.id]? with
                | none => simp [earlier] at snapshot
                | some perCommit =>
                    rw [earlier] at snapshot
                    exact ih snapshot (same ▸ earlier)
          · exact ih snapshot known
        · exact ih snapshot known
      · exact ih snapshot known

variable {range : ResolvedCommitRange} {isSymbol : Bool} {change : RangeDeltaClass}

/-- A delta at the ends of a range is one of its own ID. -/
theorem endpointDelta_id {kind : NodeKind} {id : String} {perCommit : StrMap NodeRecord}
    {record : NodeRecord}
    (known : (temporalSnapshotIndex records kind inScope)[id]? = some perCommit)
    (delta : endpointDelta range perCommit = some (change, record)) : record.id = id := by
  unfold endpointDelta at delta
  split at delta
  · next head =>
      cases delta
      exact id_of_snapshot known head
  · next base _ =>
      cases delta
      exact id_of_snapshot known base
  · next head =>
      split at delta
      · cases delta
        exact id_of_snapshot known head
      · cases delta
  · cases delta

/-- The rows of a class are the items built for its deltas. -/
theorem mem_classRows {snapshots : StrMap (StrMap NodeRecord)}
    {made : Option RangeDeltaItem × List RangeDeltaDiagnostic} :
    made ∈ classRows range isSymbol snapshots change ↔
      ∃ (id : String) (perCommit : StrMap NodeRecord) (record : NodeRecord),
        snapshots[id]? = some perCommit ∧ endpointDelta range perCommit = some (change, record) ∧
        made = buildItem range isSymbol record (classLabel isSymbol change) change perCommit := by
  simp only [classRows, List.mem_filterMap, List.mem_map, Prod.exists, exists_eq_right,
    Std.ExtTreeMap.mem_toList_iff_getElem?_eq_some]
  constructor
  · rintro ⟨perCommit, ⟨id, known⟩, built⟩
    cases delta : endpointDelta range perCommit with
    | none => simp [delta] at built
    | some found =>
        simp only [delta] at built
        split at built
        · next same =>
            cases built
            exact ⟨id, perCommit, found.2, known, by rw [delta, ← same], rfl⟩
        · cases built
  · rintro ⟨id, perCommit, record, known, delta, rfl⟩
    exact ⟨perCommit, ⟨id, known⟩, by simp [delta]⟩

/-- A row shows the snapshot of its class, and names the commit that was found, or the head. -/
theorem mem_classify {snapshots : StrMap (StrMap NodeRecord)} {row : RangeDeltaItem} :
    row ∈ classify range isSymbol snapshots change ↔
      ∃ (id : String) (perCommit : StrMap NodeRecord) (record : NodeRecord),
        snapshots[id]? = some perCommit ∧
        endpointDelta range perCommit = some (change, record) ∧
        (buildItem range isSymbol record (classLabel isSymbol change) change perCommit).1 =
          some row := by
  rw [classify, (List.perm_insertionSort _ _).mem_iff]
  simp only [List.mem_filterMap, mem_classRows]
  constructor
  · rintro ⟨_, ⟨id, perCommit, record, known, delta, rfl⟩, built⟩
    exact ⟨id, perCommit, record, known, delta, built⟩
  · rintro ⟨id, perCommit, record, known, delta, built⟩
    exact ⟨_, ⟨id, perCommit, record, known, delta, rfl⟩, built⟩

/-- A row needs a path, and names the commit or the head. -/
theorem buildItem_eq_some_iff {record : NodeRecord} {label : String}
    {perCommit : StrMap NodeRecord} {row : RangeDeltaItem}
    (built : (buildItem range isSymbol record label change perCommit).1 = some row) :
    record.repoRelativePath.isSome ∧ row.recordId = record.id ∧
      row.commit = (range.introducing perCommit change NodeRecord.summary).getD range.headSha ∧
      (buildItem range isSymbol record label change perCommit).2 =
        if (range.introducing perCommit change NodeRecord.summary).isNone then
          [unresolvedIntroduction label record.id]
        else [] := by
  unfold buildItem at built ⊢
  cases found : record.repoRelativePath with
  | none => simp [found] at built
  | some path =>
      simp only [found, Option.some.injEq] at built ⊢
      subst built
      simp

variable (range isSymbol change) in
/-- With a path there is a row. -/
theorem exists_buildItem {record : NodeRecord} (label : String) (perCommit : StrMap NodeRecord)
    (shown : record.repoRelativePath.isSome) :
    ∃ row, (buildItem range isSymbol record label change perCommit).1 = some row := by
  obtain ⟨path, found⟩ := Option.isSome_iff_exists.mp shown
  exact ⟨_, by rw [buildItem, found]⟩

/-- The labels of the classes differ. -/
theorem classLabel_injective {isSymbol isSymbol' : Bool} {change change' : RangeDeltaClass}
    (same : classLabel isSymbol change = classLabel isSymbol' change') :
    isSymbol = isSymbol' ∧ change = change' := by
  revert same
  cases isSymbol <;> cases isSymbol' <;> cases change <;> cases change' <;> decide

/-- A diagnostic names its label and its ID. -/
theorem unresolvedIntroduction_injective {label label' id id' : String}
    (same : unresolvedIntroduction label id = unresolvedIntroduction label' id') :
    label = label' ∧ id = id' := by
  simp only [unresolvedIntroduction, RangeDeltaDiagnostic.mk.injEq, true_and] at same
  refine ⟨?_, same.1⟩
  have characters := congrArg String.toList same.2
  simp only [String.toList_append, List.append_assoc] at characters
  exact String.toList_inj.mp (List.append_cancel_right characters)

/-- A record whose row is shown without a commit of its own. -/
def Unintroduced (range : ResolvedCommitRange) (snapshots : StrMap (StrMap NodeRecord))
    (change : RangeDeltaClass) (id : String) : Prop :=
  ∃ perCommit record, snapshots[id]? = some perCommit ∧
    endpointDelta range perCommit = some (change, record) ∧ record.repoRelativePath.isSome ∧
    range.introducing perCommit change NodeRecord.summary = none

/-- The diagnostic stands for a delta that no commit of the range introduced. -/
theorem unresolvedIntroduction_mem_iff {isSymbol' : Bool} {id : String} :
    unresolvedIntroduction (classLabel isSymbol change) id ∈
        classifyUnresolved range isSymbol' (rangeSnapshots records inScope isSymbol') ↔
      isSymbol' = isSymbol ∧
        Unintroduced range (rangeSnapshots records inScope isSymbol) change id := by
  simp only [classifyUnresolved, List.mem_flatMap, mem_classRows]
  constructor
  · rintro ⟨change', -, _, ⟨id', perCommit, record, known, delta, rfl⟩, listed⟩
    have id_eq : record.id = id' := endpointDelta_id known delta
    cases found : record.repoRelativePath with
    | none =>
        simp only [buildItem, found, List.mem_singleton] at listed
        have codes := congrArg RangeDeltaDiagnostic.code listed
        exact absurd codes (by simp [unresolvedIntroduction, missingRepoRelativePath])
    | some path =>
        have shown : record.repoRelativePath.isSome := by rw [found, Option.isSome_some]
        obtain ⟨row, built⟩ := exists_buildItem range isSymbol' change'
          (classLabel isSymbol' change') perCommit shown
        rw [(buildItem_eq_some_iff built).2.2.2] at listed
        split at listed
        · next none_ =>
            obtain ⟨labels, ids⟩ := unresolvedIntroduction_injective (List.mem_singleton.mp listed)
            obtain ⟨rfl, rfl⟩ := classLabel_injective labels
            rw [ids, id_eq]
            exact ⟨rfl, perCommit, record, known, delta, shown, Option.isNone_iff_eq_none.mp none_⟩
        · cases listed
  · rintro ⟨rfl, perCommit, record, known, delta, shown, none_⟩
    obtain ⟨row, built⟩ := exists_buildItem range isSymbol' change
      (classLabel isSymbol' change) perCommit shown
    refine ⟨change, by cases change <;> simp, _, ⟨id, perCommit, record, known, delta, rfl⟩, ?_⟩
    rw [(buildItem_eq_some_iff built).2.2.2, none_, endpointDelta_id known delta]
    simp

/-- Sorting and collapsing the diagnostics loses none. -/
theorem mem_unresolved {diagnostics : List RangeDeltaDiagnostic}
    {diagnostic : RangeDeltaDiagnostic} :
    diagnostic ∈ dedupBy unresolvedOrder (diagnostics.insertionSort
        fun diagnostic other => unresolvedOrder diagnostic other ≠ .gt) ↔
      diagnostic ∈ diagnostics := by
  refine mem_dedupBy_of_perm (List.perm_insertionSort _ _) fun kept _ other _ same => ?_
  simp only [unresolvedOrder, compareLex, compareOn, Ordering.then_eq_eq,
    Std.LawfulEqCmp.compare_eq_iff_eq] at same
  obtain ⟨codes, ids, details⟩ := same
  cases kept
  cases other
  simp only [RangeDeltaDiagnostic.mk.injEq]
  exact ⟨asBytes_injective codes, asBytes_injective ids, asBytes_injective details⟩

end Rows

/-! ## Deltas -/

section Deltas

variable {toLowercase : String → String} {records : List GraphRecord}
  {basePrefix headPrefix : String} {repoScope : Option String} {scope : RangeScope}
  {range : ResolvedCommitRange} {deltas : RangeDeltas}

/-- Every row for which a commit was found names one that led to the head. -/
def RowsIntroduce (records : List GraphRecord) (inScope : String → Bool)
    (range : ResolvedCommitRange) (deltas : RangeDeltas) : Prop :=
  ∀ isSymbol change, ∀ row ∈ deltas.rows isSymbol change,
    unresolvedIntroduction (classLabel isSymbol change) row.recordId ∉ deltas.unresolved →
    KeptToHead range ((rangeSnapshots records inScope isSymbol).getD row.recordId ∅) change
      row.commit

/-- Wherever a row is shown, the discarded transitions of its record are older than one that
led to the head. -/
def DiscardedTransitionsAreOlder (records : List GraphRecord) (inScope : String → Bool)
    (range : ResolvedCommitRange) : Prop :=
  ∀ isSymbol change (id : String) (perCommit : StrMap NodeRecord) (record : NodeRecord),
    (rangeSnapshots records inScope isSymbol)[id]? = some perCommit →
    endpointDelta range perCommit = some (change, record) →
    record.repoRelativePath.isSome → DiscardedAreOlder records range perCommit change

section Computed

variable (isScope : resolveRangeScope toLowercase records basePrefix headPrefix repoScope =
    .ok scope)
  (resolved : resolveCommitRange toLowercase records scope.inScope basePrefix headPrefix =
    .ok range)
  (computed : rangeDeltas toLowercase records basePrefix headPrefix repoScope = .ok deltas)
include isScope resolved computed

/-- The answer holds the rows of each class. -/
theorem rows_eq (isSymbol : Bool) (change : RangeDeltaClass) :
    deltas.rows isSymbol change =
      classify range isSymbol (rangeSnapshots records scope.inScope isSymbol) change := by
  rw [rangeDeltas, isScope] at computed
  simp only [resolved, Except.ok.injEq] at computed
  subst computed
  cases isSymbol <;> cases change <;> rfl

/-- It holds the diagnostic of each delta without an introduction. -/
theorem unresolved_iff {isSymbol : Bool} {change : RangeDeltaClass} {id : String} :
    unresolvedIntroduction (classLabel isSymbol change) id ∈ deltas.unresolved ↔
      Unintroduced range (rangeSnapshots records scope.inScope isSymbol) change id := by
  rw [rangeDeltas, isScope] at computed
  simp only [resolved, Except.ok.injEq] at computed
  subst computed
  rw [mem_unresolved, List.mem_append]
  have symbols : unresolvedIntroduction (classLabel isSymbol change) id ∈
      classifyUnresolved range true (rangeSnapshots records scope.inScope true) ↔ _ :=
    unresolvedIntroduction_mem_iff
  have files : unresolvedIntroduction (classLabel isSymbol change) id ∈
      classifyUnresolved range false (rangeSnapshots records scope.inScope false) ↔ _ :=
    unresolvedIntroduction_mem_iff
  refine (or_congr symbols files).trans ?_
  cases isSymbol <;> simp

/-- The rows name commits that led to the head exactly when no discarded transition is newer
than all that did. -/
theorem rangeDeltas_introduce_iff :
    RowsIntroduce records scope.inScope range deltas ↔
      DiscardedTransitionsAreOlder records scope.inScope range := by
  have lists := rangeLists_of_resolved resolved
  constructor
  · intro introduce isSymbol change id perCommit record known delta shown
    rw [← introducing_kept_iff lists]
    intro sha found
    have id_eq : record.id = id := endpointDelta_id known delta
    obtain ⟨row, built⟩ := exists_buildItem range isSymbol change
      (classLabel isSymbol change) perCommit shown
    obtain ⟨-, rowId, commit, -⟩ := buildItem_eq_some_iff built
    have member : row ∈ deltas.rows isSymbol change := by
      rw [rows_eq isScope resolved computed]
      exact mem_classify.mpr ⟨id, perCommit, record, known, delta, built⟩
    have kept := introduce isSymbol change row member (by
      rw [unresolved_iff isScope resolved computed, rowId, id_eq]
      rintro ⟨perCommit', record', known', -, -, none_⟩
      rw [known, Option.some.injEq] at known'
      rw [← known', found] at none_
      cases none_)
    rw [rowId, id_eq, Std.ExtTreeMap.getD_eq_getD_getElem?, known, Option.getD_some, commit,
      found, Option.getD_some] at kept
    exact kept
  · intro older isSymbol change row member resolvedRow
    rw [rows_eq isScope resolved computed] at member
    obtain ⟨id, perCommit, record, known, delta, built⟩ := mem_classify.mp member
    have id_eq : record.id = id := endpointDelta_id known delta
    obtain ⟨shown, rowId, commit, -⟩ := buildItem_eq_some_iff built
    rw [unresolved_iff isScope resolved computed, rowId, id_eq] at resolvedRow
    rw [rowId, id_eq, Std.ExtTreeMap.getD_eq_getD_getElem?, known, Option.getD_some, commit]
    cases found : range.introducing perCommit change NodeRecord.summary with
    | none => exact absurd ⟨perCommit, record, known, delta, shown, found⟩ resolvedRow
    | some sha =>
        exact (introducing_kept_iff lists).mpr
          (older isSymbol change id perCommit record known delta shown) sha found

end Computed

end Deltas

/-! ## A discarded side branch -/

section Discarded

def commitOf (sha : String) (parents : List String) : GraphRecord :=
  .node { id := "commit:" ++ sha, kind := .commit, schemaVersion := 3, name := some sha
          temporal := some { gitCommit := sha, gitParentCommits := parents
                             validTime := "", observedAt := "" } }

def symbolAt (sha : String) : GraphRecord :=
  .node { id := "symbol", kind := .symbol, schemaVersion := 3, name := some "f"
          repoRelativePath := some "src/lib.rs", summary := "fn f()"
          temporal := some { gitCommit := sha, validTime := "", observedAt := "" } }

/-- The symbol is added on the main line, and added and removed again on a longer side branch
that is merged. -/
def discardedBranch : List GraphRecord :=
  [commitOf "base" [], commitOf "side1" ["base"], commitOf "side2" ["side1"],
    commitOf "side3" ["side2"], commitOf "main" ["base"], commitOf "head" ["main", "side3"],
    symbolAt "side2", symbolAt "main", symbolAt "head"]

/-- A mapped result that is there comes from a result. -/
theorem exists_of_map_eq {ε α β : Type} {result : Except ε α} {f : α → β} {value : β}
    (mapped : result.toOption.map f = some value) : ∃ made, result = .ok made ∧ f made = value := by
  cases result with
  | error fault => cases mapped
  | ok made => exact ⟨made, rfl, Option.some.inj mapped⟩

/-- Without a repository the query is not scoped. -/
theorem resolveRangeScope_discardedBranch :
    resolveRangeScope id discardedBranch "base" "head" none = .ok .unscoped := by
  rw [resolveRangeScope]
  exact if_pos (by decide)

/-- The equivalence at this history. -/
theorem rangeDeltas_discardedBranch_iff :
    ∃ range deltas,
      resolveCommitRange id discardedBranch RangeScope.unscoped.inScope "base" "head" =
        .ok range ∧
      rangeDeltas id discardedBranch "base" "head" none = .ok deltas ∧
      (RowsIntroduce discardedBranch RangeScope.unscoped.inScope range deltas ↔
        DiscardedTransitionsAreOlder discardedBranch RangeScope.unscoped.inScope range) := by
  obtain ⟨range, resolved, -⟩ : ∃ range, resolveCommitRange id discardedBranch
      RangeScope.unscoped.inScope "base" "head" = .ok range ∧ range.headSha = "head" :=
    exists_of_map_eq (by decide)
  obtain ⟨deltas, computed, -⟩ : ∃ deltas, rangeDeltas id discardedBranch "base" "head" none =
      .ok deltas ∧ deltas.head = "head" := exists_of_map_eq (by decide)
  exact ⟨range, deltas, resolved, computed,
    rangeDeltas_introduce_iff resolveRangeScope_discardedBranch resolved computed⟩

/-- The row of the symbol names the commit of the side branch, which the next commit undid. -/
theorem rangeDeltas_discardedBranch :
    ∃ range deltas,
      resolveRangeScope id discardedBranch "base" "head" none = .ok .unscoped ∧
      resolveCommitRange id discardedBranch RangeScope.unscoped.inScope "base" "head" =
        .ok range ∧
      rangeDeltas id discardedBranch "base" "head" none = .ok deltas ∧
      ¬ RowsIntroduce discardedBranch RangeScope.unscoped.inScope range deltas := by
  obtain ⟨range, resolved, facts⟩ : ∃ range, resolveCommitRange id discardedBranch
      RangeScope.unscoped.inScope "base" "head" = .ok range ∧
        (range.headSha, range.parentMap.toList.filter fun entry => "side2" ∈ entry.2) =
          ("head", [("side3", ["side2"])]) := exists_of_map_eq (by decide)
  obtain ⟨deltas, computed, rows⟩ : ∃ deltas, rangeDeltas id discardedBranch "base" "head" none =
      .ok deltas ∧ (deltas.addedSymbols.map fun row => (row.recordId, row.commit),
        deltas.unresolved) = ([("symbol", "side2")], []) := exists_of_map_eq (by decide)
  refine ⟨range, deltas, resolveRangeScope_discardedBranch, resolved, computed, fun introduce => ?_⟩
  simp only [Prod.mk.injEq] at facts rows
  obtain ⟨row, member, named⟩ : ∃ row ∈ deltas.addedSymbols,
      (row.recordId, row.commit) = ("symbol", "side2") := by
    rw [← List.mem_map, rows.1]
    exact List.mem_singleton.mpr rfl
  simp only [Prod.mk.injEq] at named
  have kept := introduce true .added row member (by rw [rows.2]; exact List.not_mem_nil)
  rw [named.1, named.2] at kept
  have absent : "side3" ∉ (rangeSnapshots discardedBranch RangeScope.unscoped.inScope
      true).getD "symbol" ∅ := by decide
  generalize isSide : "side2" = sha at kept
  cases kept with
  | head _ _ =>
      rw [facts.1] at isSide
      exact absurd isSide (by decide)
  | @parent child _ kept edge _ _ =>
      subst isSide
      have listed : (child, range.parentMap.getD child []) ∈
          range.parentMap.toList.filter fun entry => "side2" ∈ entry.2 := by
        refine List.mem_filter.mpr ⟨?_, decide_eq_true edge⟩
        rw [Std.ExtTreeMap.mem_toList_iff_getElem?_eq_some]
        rw [Std.ExtTreeMap.getD_eq_getD_getElem?] at edge ⊢
        cases found : range.parentMap[child]? with
        | none => simp [found] at edge
        | some parents => rfl
      rw [facts.2, List.mem_singleton, Prod.mk.injEq] at listed
      exact absurd kept.shows (listed.1 ▸ absent)

end Discarded

end Egregore
