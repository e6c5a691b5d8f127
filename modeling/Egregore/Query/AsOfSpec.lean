import Egregore.Base.Saturation
import Egregore.Query.AsOf
import Egregore.Query.Current

/-!
# HEAD anchoring over a slice and over its current state

The head map is folded over every version and every tombstone of a repository, so it may
keep a head that a later version no longer stamps, and lose one that was retracted and
stamped again. Both reads see the same heads but for these two kinds of repository, and
`headAnchoringCollapses_iff` says when no record ID shows the difference.
-/

namespace Egregore

open Base

/-- A `Repository` node write of `id`. -/
def GraphRecord.writesRepository (id : String) : GraphRecord → Bool
  | .node record => record.id = id && decide (record.kind = .repository)
  | _ => false

/-- A `Repository` node write of `id` that stamps a head commit. -/
def GraphRecord.stampsHead (id : String) (record : GraphRecord) : Bool :=
  record.writesNode id && record.repositoryHead.isSome

/-- The id is that of a `Repository` node. -/
def isRepositoryId (records : List GraphRecord) (id : String) : Bool :=
  records.any (GraphRecord.writesRepository id)

/-- A `Repository` id keeps its latest node write, unless its latest write is a tombstone. -/
def keepsRepository (records : List GraphRecord) : GraphRecord × Nat → Bool
  | (.node node, index) =>
      !isRepositoryId records node.id ||
        ((Liveness.new records).isLatestNodeVersion node.id index &&
          !(Liveness.new records).tombstoneActive node.id)
  | (.edge _, _) => true
  | (.tombstone tombstone, _) => !isRepositoryId records tombstone.deletedId

/-- The slice with its `Repository` ids in their current state. -/
def collapseRepositories (records : List GraphRecord) : List GraphRecord :=
  (records.zipIdx.filter (keepsRepository records)).map Prod.fst

/-- The two reads give the same answers. -/
structure HeadAnchoringCollapses (records : List GraphRecord) (index : RepositoryIndex) : Prop where
  snapshot : storeHasSourceSnapshot records = storeHasSourceSnapshot (collapseRepositories records)
  nonHead : nonHeadCurrentRecordIds records index =
    nonHeadCurrentRecordIds (collapseRepositories records) index

/-- The latest node write of `repo` stamps `head`, and no tombstone ends it. -/
def CurrentHead (records : List GraphRecord) (repo head : String) : Prop :=
  (Liveness.new records).tombstoneActive repo = false ∧
    ∃ latest, lastEvent (GraphRecord.writesNode repo) records = some latest ∧
      latest.repositoryHead = some head

/-- Some tombstone deletes `repo`, before or after its latest write. -/
def EverRetracted (records : List GraphRecord) (repo : String) : Prop :=
  ∃ record ∈ records, record.deletes repo = true

/-- A head that both reads see. -/
def SettledHead (records : List GraphRecord) (repo head : String) : Prop :=
  CurrentHead records repo head ∧ ¬ EverRetracted records repo

/-- A head that only the current state shows: its repository was retracted and revived. -/
def LostHead (records : List GraphRecord) (repo head : String) : Prop :=
  CurrentHead records repo head ∧ EverRetracted records repo

/-- A head that only the history shows: the latest write of its repository stamps none. -/
def OutdatedHead (records : List GraphRecord) (repo head : String) : Prop :=
  ¬ EverRetracted records repo ∧ (∀ head, ¬ CurrentHead records repo head) ∧
    ∃ latest, lastEvent (GraphRecord.stampsHead repo) records = some latest ∧
      latest.repositoryHead = some head

/-- The version carries no stamp, or that of a head it is anchored at. -/
def Anchored (head : String → String → Prop) (owner : Option String) (record : GraphRecord) :
    Prop :=
  ∀ stamp, record.temporal = some stamp →
    match owner with
    | some repo => ∀ sha, head repo sha → stamp.gitCommit = sha
    | none => ∃ repo, head repo stamp.gitCommit

/-- Some version of `id` is anchored. -/
def Kept (records : List GraphRecord) (head : String → String → Prop) (owner : Option String)
    (id : String) : Prop :=
  ∃ record ∈ records, record.id = id ∧ Anchored head owner record

/-- A version of `id` is stamped with such a commit. -/
def VersionAt (records : List GraphRecord) (id : String) (commit : String → Prop) : Prop :=
  ∃ record ∈ records, record.id = id ∧
    ∃ stamp, record.temporal = some stamp ∧ commit stamp.gitCommit

/-- The collapse may hide a record of this id. -/
def Touched (records : List GraphRecord) (id : String) : Prop :=
  isRepositoryId records id = true ∨
    ∃ tombstone, .tombstone tombstone ∈ records ∧ tombstone.id = id ∧
      isRepositoryId records tombstone.deletedId = true

/-- The id has versions, and each of them is stamped. -/
def Stamped (records : List GraphRecord) (id : String) : Prop :=
  (∃ record ∈ records, record.id = id) ∧
    ∀ record ∈ records, record.id = id → record.temporal.isSome = true

/-- The id does not show that a head is outdated or lost. -/
structure HeadsUnnoticed (records : List GraphRecord) (index : RepositoryIndex) (id : String) :
    Prop where
  owned : ∀ repo, Stamped records id → index.ownerOf id = some repo → ∀ sha,
    OutdatedHead records repo sha ∨ LostHead records repo sha → VersionAt records id (· = sha)
  unowned : Stamped records id → index.ownerOf id = none →
    (VersionAt records id fun sha => ∃ repo, SettledHead records repo sha) ∨
      ((VersionAt records id fun sha => ∃ repo, OutdatedHead records repo sha) ↔
        VersionAt records id fun sha => ∃ repo, LostHead records repo sha)
  touched : Touched records id → (∃ repo sha, CurrentHead records repo sha) →
    (∃ record ∈ collapseRepositories records, record.id = id) →
      Kept (collapseRepositories records) (CurrentHead records) (index.ownerOf id) id

section Heads

variable {records : List GraphRecord} {repo sha : String}

/-- The head that the fold over the whole slice leaves. -/
def FoldedHead (records : List GraphRecord) (repo sha : String) : Prop :=
  ¬ EverRetracted records repo ∧
    ∃ latest, lastEvent (GraphRecord.stampsHead repo) records = some latest ∧
      latest.repositoryHead = some sha

/-- The fold collects the IDs that some tombstone deletes. -/
private theorem contains_tombstoned :
    ((records.filterMap GraphRecord.deletedId?).foldl (·.insert ·) (∅ : StrSet)).contains repo =
      records.any (GraphRecord.deletes repo) := by
  rw [Bool.eq_iff_iff, Std.ExtTreeSet.contains_iff_mem, mem_foldl_insert, List.any_eq_true]
  simp only [Std.ExtTreeSet.not_mem_empty, false_or, List.mem_filterMap]
  refine exists_congr fun record => and_congr_right fun _ => ?_
  cases record <;> simp [GraphRecord.deletedId?, GraphRecord.deletes]

/-- The entries of a repository are the stamps of its own nodes. -/
private theorem filter_headEntries (dead : String → Bool) (items : List GraphRecord) :
    ((items.filterMap fun record =>
      if dead record.id then none
      else record.repositoryHead.map fun sha => (record.id, sha)).filter fun entry =>
        entry.1 = repo) =
      if dead repo then []
      else (items.filter (GraphRecord.stampsHead repo)).map fun record =>
        (repo, record.repositoryHead.getD "") := by
  induction items with
  | nil => simp
  | cons first rest ih =>
      rw [List.filterMap_cons, List.filter_cons]
      cases stamped : first.repositoryHead with
      | none =>
          have silent : first.stampsHead repo = false := by simp [GraphRecord.stampsHead, stamped]
          simpa [silent] using ih
      | some sha =>
          have writes : first.writesNode repo = decide (first.id = repo) := by
            cases first with
            | node node => rfl
            | edge edge => simp [GraphRecord.repositoryHead] at stamped
            | tombstone tombstone => simp [GraphRecord.repositoryHead] at stamped
          have stamps : first.stampsHead repo = decide (first.id = repo) := by
            simp [GraphRecord.stampsHead, stamped, writes]
          by_cases same : first.id = repo
          · subst same
            cases gone : dead first.id with
            | true => simpa [gone] using ih
            | false => simpa [gone, stamps, stamped] using ih
          · cases gone : dead first.id with
            | true => simpa [gone, stamps, same] using ih
            | false => simpa [gone, stamps, same] using ih

/-- So the map holds the last stamp of a repository that no tombstone ever deleted. -/
theorem getElem?_collectRepoHeads :
    (collectRepoHeads records)[repo]? = some sha ↔ FoldedHead records repo sha := by
  rw [collectRepoHeads, getElem?_foldl_insertEntry, filter_headEntries, contains_tombstoned,
    FoldedHead, EverRetracted, ← List.any_eq_true]
  cases records.any (GraphRecord.deletes repo) with
  | true => simp
  | false =>
      simp only [Bool.false_eq_true, if_false, not_false_eq_true, true_and,
        Std.ExtTreeMap.getElem?_empty, Option.or_none, List.getLast?_map, Option.map_map,
        Option.map_eq_some_iff, Function.comp_apply]
      refine exists_congr fun latest => and_congr_right fun found => ?_
      have stamps := (mem_of_lastEvent found).2
      rw [GraphRecord.stampsHead, Bool.and_eq_true, Option.isSome_iff_exists] at stamps
      obtain ⟨-, head, stamped⟩ := stamps
      simp [stamped]

/-- The store has a snapshot when some repository has a head. -/
theorem storeHasSourceSnapshot_iff :
    storeHasSourceSnapshot records = true ↔ ∃ repo sha, FoldedHead records repo sha := by
  rw [storeHasSourceSnapshot, Bool.not_eq_true', ← Bool.not_eq_true, Std.ExtTreeMap.isEmpty_iff]
  simp only [← getElem?_collectRepoHeads]
  constructor
  · intro nonempty
    by_contra none_
    refine nonempty (Std.ExtTreeMap.ext_getElem? fun repo => ?_)
    rw [Std.ExtTreeMap.getElem?_empty, Option.eq_none_iff_forall_ne_some]
    exact fun sha found => none_ ⟨repo, sha, found⟩
  · rintro ⟨repo, sha, found⟩ empty
    rw [empty, Std.ExtTreeMap.getElem?_empty] at found
    cases found

/-- A record is current when it is anchored at the head of its owner. -/
private theorem recordCurrent_iff {index : RepositoryIndex} {record : GraphRecord} :
    recordCurrent (collectRepoHeads records) index record = true ↔
      Anchored (FoldedHead records) (index.ownerOf record.id) record := by
  rw [recordCurrent, Anchored]
  cases record.temporal with
  | none => simp
  | some stamp =>
      simp only [Option.some.injEq, forall_eq', versionCurrent, ← getElem?_collectRepoHeads]
      cases index.ownerOf record.id with
      | none =>
          simp only [List.any_eq_true, decide_eq_true_eq, Prod.exists, exists_eq_right,
            Std.ExtTreeMap.mem_toList_iff_getElem?_eq_some]
      | some repo =>
          cases found : (collectRepoHeads records)[repo]? <;> simp [found]

/-- The dropped ids are those without an anchored version. -/
theorem mem_nonHeadCurrentRecordIds {index : RepositoryIndex} {id : String} :
    id ∈ nonHeadCurrentRecordIds records index ↔
      (∃ repo sha, FoldedHead records repo sha) ∧ (∃ record ∈ records, record.id = id) ∧
        ¬ Kept records (FoldedHead records) (index.ownerOf id) id := by
  rw [nonHeadCurrentRecordIds, ← storeHasSourceSnapshot_iff, storeHasSourceSnapshot,
    Bool.not_eq_true']
  cases (collectRepoHeads records).isEmpty with
  | true => simp
  | false =>
      simp only [Bool.false_eq_true, if_false, true_and, mem_filter_set, mem_foldl_insert,
        Std.ExtTreeSet.not_mem_empty, false_or, List.mem_map, List.mem_filter, Bool.not_eq_true',
        ← Bool.not_eq_true, Std.ExtTreeSet.contains_iff_mem, recordCurrent_iff]
      constructor
      · rintro ⟨⟨record, ⟨member, -⟩, named⟩, off⟩
        refine ⟨⟨record, member, named⟩, ?_⟩
        rintro ⟨other, member', rfl, anchored⟩
        exact off ⟨other, ⟨member', anchored⟩, rfl⟩
      · rintro ⟨⟨record, member, rfl⟩, off⟩
        refine ⟨⟨record, ⟨member, fun anchored => off ⟨record, member, rfl, anchored⟩⟩, rfl⟩, ?_⟩
        rintro ⟨other, ⟨member', anchored⟩, named⟩
        exact off ⟨other, member', named, named ▸ anchored⟩

end Heads

section Collapse

variable {records : List GraphRecord} {id repo sha : String}

/-- A stamped node is a Repository node. -/
theorem isRepositoryId_of_repositoryHead {record : GraphRecord} (member : record ∈ records)
    (stamped : record.repositoryHead = some sha) : isRepositoryId records record.id = true := by
  rw [isRepositoryId, List.any_eq_true]
  refine ⟨record, member, ?_⟩
  cases record with
  | node node =>
      simp only [GraphRecord.repositoryHead, Option.ite_none_right_eq_some] at stamped
      simp [GraphRecord.writesRepository, stamped.1]
  | edge edge => simp [GraphRecord.repositoryHead] at stamped
  | tombstone tombstone => simp [GraphRecord.repositoryHead] at stamped

/-- A repository keeps its latest node write. -/
theorem filter_writesNode_collapse (repository : isRepositoryId records repo = true) :
    (collapseRepositories records).filter (GraphRecord.writesNode repo) =
      if (Liveness.new records).tombstoneActive repo then []
      else (lastEvent (GraphRecord.writesNode repo) records).toList := by
  rw [collapseRepositories, List.filter_map, List.filter_filter, ← filter_zipIdx_lastIdx]
  have same : (records.zipIdx.filter fun entry =>
      (GraphRecord.writesNode repo ∘ Prod.fst) entry && keepsRepository records entry) =
      records.zipIdx.filter fun entry => !(Liveness.new records).tombstoneActive repo &&
        (entry.1.writesNode repo &&
          decide (lastIdx (GraphRecord.writesNode repo) records = some entry.2)) := by
    apply List.filter_congr
    rintro ⟨record, index⟩ -
    cases record with
    | node node =>
        by_cases named : node.id = repo
        · subst named
          simp [GraphRecord.writesNode, keepsRepository, repository,
            Liveness.isLatestNodeVersion_new, Bool.and_comm]
        · simp [GraphRecord.writesNode, named]
    | edge edge => simp [GraphRecord.writesNode]
    | tombstone tombstone => simp [GraphRecord.writesNode]
  rw [same]
  cases (Liveness.new records).tombstoneActive repo <;> simp

/-- Collapsing the repositories adds nothing. -/
theorem mem_of_mem_collapse {record : GraphRecord}
    (member : record ∈ collapseRepositories records) : record ∈ records := by
  rw [collapseRepositories, List.mem_map] at member
  obtain ⟨⟨record, index⟩, kept, rfl⟩ := member
  exact (List.mem_zipIdx' (List.mem_filter.mp kept).1).2 ▸ List.getElem_mem _

/-- A record of an untouched id is kept. -/
theorem mem_collapse_of_untouched {record : GraphRecord} (untouched : ¬ Touched records record.id)
    (member : record ∈ records) : record ∈ collapseRepositories records := by
  rw [Touched, not_or, not_exists] at untouched
  obtain ⟨notRepository, notRetraction⟩ := untouched
  obtain ⟨index, found⟩ := List.mem_iff_getElem?.mp member
  rw [collapseRepositories, List.mem_map]
  refine ⟨(record, index), List.mem_filter.mpr ⟨List.mk_mem_zipIdx_iff_getElem?.mpr found, ?_⟩, rfl⟩
  cases record with
  | node node =>
      have kept : isRepositoryId records node.id = false := Bool.eq_false_of_not_eq_true notRepository
      simp [keepsRepository, kept]
  | edge edge => rfl
  | tombstone tombstone =>
      have kept : ¬ isRepositoryId records tombstone.deletedId = true := fun repository =>
        notRetraction tombstone ⟨member, rfl, repository⟩
      simp [keepsRepository, kept]

/-- It leaves no tombstone of a repository. -/
theorem not_everRetracted_collapse (repository : isRepositoryId records repo = true) :
    ¬ EverRetracted (collapseRepositories records) repo := by
  rintro ⟨record, member, deletes⟩
  rw [collapseRepositories, List.mem_map] at member
  obtain ⟨⟨record, index⟩, kept, rfl⟩ := member
  cases record with
  | node node => simp [GraphRecord.deletes] at deletes
  | edge edge => simp [GraphRecord.deletes] at deletes
  | tombstone tombstone =>
      obtain rfl : tombstone.deletedId = repo := by simpa [GraphRecord.deletes] using deletes
      simp [keepsRepository, repository] at kept

/-- The head map of the collapsed slice holds the current heads. -/
theorem foldedHead_collapse :
    FoldedHead (collapseRepositories records) repo sha ↔ CurrentHead records repo sha := by
  by_cases repository : isRepositoryId records repo = true
  · have stamps : (collapseRepositories records).filter (GraphRecord.stampsHead repo) =
        ((collapseRepositories records).filter (GraphRecord.writesNode repo)).filter
          fun record => record.repositoryHead.isSome := by
      rw [List.filter_filter]
      exact List.filter_congr fun record _ => Bool.and_comm _ _
    rw [FoldedHead, CurrentHead, lastEvent, stamps, filter_writesNode_collapse repository]
    simp only [not_everRetracted_collapse repository, not_false_eq_true, true_and]
    cases (Liveness.new records).tombstoneActive repo with
    | true => simp
    | false =>
        cases lastEvent (GraphRecord.writesNode repo) records with
        | none => simp
        | some latest =>
            cases stamped : latest.repositoryHead <;> simp [stamped]
  · constructor
    · rintro ⟨-, latest, found, stamped⟩
      obtain ⟨member, stamps⟩ := mem_of_lastEvent found
      have named : latest.id = repo := GraphRecord.id_of_writes
        (GraphRecord.writes_eq_true.mpr (Or.inl (Bool.and_eq_true_iff.mp stamps).1))
      exact absurd (named ▸ isRepositoryId_of_repositoryHead (mem_of_mem_collapse member) stamped)
        repository
    · rintro ⟨-, latest, found, stamped⟩
      obtain ⟨member, writes⟩ := mem_of_lastEvent found
      have named : latest.id = repo :=
        GraphRecord.id_of_writes (GraphRecord.writes_eq_true.mpr (Or.inl writes))
      exact absurd (named ▸ isRepositoryId_of_repositoryHead member stamped) repository

/-- The two head maps differ by the outdated and the lost heads. -/
theorem currentHead_iff :
    CurrentHead records repo sha ↔ SettledHead records repo sha ∨ LostHead records repo sha := by
  rw [SettledHead, LostHead, ← and_or_left]
  exact ⟨fun current => ⟨current, (em _).symm⟩, And.left⟩

/-- The latest node write, if it stamps a head, is the last to stamp one. -/
private theorem lastEvent_stampsHead {latest : GraphRecord}
    (found : lastEvent (GraphRecord.writesNode repo) records = some latest)
    (stamped : latest.repositoryHead = some sha) :
    lastEvent (GraphRecord.stampsHead repo) records = some latest := by
  apply lastEvent_narrow _ found
  · simp [GraphRecord.stampsHead, (mem_of_lastEvent found).2, stamped]
  · exact fun other stamps => (Bool.and_eq_true_iff.mp stamps).1

/-- A folded head is that of the latest version, or an earlier one that the fold left. -/
theorem foldedHead_iff :
    FoldedHead records repo sha ↔ SettledHead records repo sha ∨ OutdatedHead records repo sha := by
  constructor
  · rintro ⟨never, latest, found, stamped⟩
    by_cases current : ∃ head, CurrentHead records repo head
    · obtain ⟨head, live, last, found', stamped'⟩ := current
      obtain rfl : latest = last := by
        have := lastEvent_stampsHead found' stamped'
        rw [found] at this
        exact Option.some.inj this
      exact Or.inl ⟨⟨live, latest, found', stamped⟩, never⟩
    · exact Or.inr ⟨never, fun head shown => current ⟨head, shown⟩, latest, found, stamped⟩
  · rintro (⟨⟨-, latest, found, stamped⟩, never⟩ | ⟨never, -, latest, found, stamped⟩)
    · exact ⟨never, latest, lastEvent_stampsHead found stamped, stamped⟩
    · exact ⟨never, latest, found, stamped⟩

/-- A repository has one folded head at most. -/
theorem foldedHead_unique {other : String} (first : FoldedHead records repo sha)
    (second : FoldedHead records repo other) : sha = other := by
  obtain ⟨-, latest, found, stamped⟩ := first
  obtain ⟨-, last, found', stamped'⟩ := second
  obtain rfl : latest = last := Option.some.inj (found.symm.trans found')
  exact Option.some.inj (stamped.symm.trans stamped')

end Collapse

section Agreement

variable {records : List GraphRecord} {index : RepositoryIndex} {id : String}

/-- No `Repository` node carries a stamp. -/
def RepositoriesUnstamped (records : List GraphRecord) : Prop :=
  ∀ node, .node node ∈ records → node.kind = .repository → node.temporal = none

/-- A touched id has a version without a stamp. -/
theorem not_stamped_of_touched (unstamped : RepositoriesUnstamped records)
    (touched : Touched records id) : ¬ Stamped records id := by
  rintro ⟨-, all⟩
  rcases touched with repository | ⟨tombstone, member, rfl, -⟩
  · rw [isRepositoryId, List.any_eq_true] at repository
    obtain ⟨record, member, writes⟩ := repository
    cases record with
    | node node =>
        simp only [GraphRecord.writesRepository, Bool.and_eq_true, decide_eq_true_eq] at writes
        have stamped := all _ member writes.1
        simp [GraphRecord.temporal, unstamped node member writes.2] at stamped
    | edge edge => simp [GraphRecord.writesRepository] at writes
    | tombstone tombstone => simp [GraphRecord.writesRepository] at writes
  · simpa [GraphRecord.temporal] using all _ member rfl

/-- An id with a version without a stamp is kept. -/
theorem kept_of_not_stamped {head : String → String → Prop} {owner : Option String}
    (present : ∃ record ∈ records, record.id = id) (unstamped : ¬ Stamped records id) :
    Kept records head owner id := by
  by_contra dropped
  refine unstamped ⟨present, fun record member named => ?_⟩
  by_contra bare
  refine dropped ⟨record, member, named, fun stamp stamped => ?_⟩
  simp [stamped] at bare

/-- An unowned id is kept by a version at any head. -/
theorem kept_unowned {head : String → String → Prop} (stamped : Stamped records id) :
    Kept records head none id ↔ VersionAt records id fun sha => ∃ repo, head repo sha := by
  refine exists_congr fun record => and_congr_right fun member => and_congr_right fun named => ?_
  obtain ⟨stamp, found⟩ := Option.isSome_iff_exists.mp (stamped.2 record member named)
  simp [Anchored, found]

/-- An owned id is kept by a version at its owner's head, if that has one. -/
theorem kept_owned {head : String → String → Prop} {repo : String} (stamped : Stamped records id)
    (unique : ∀ sha other, head repo sha → head repo other → sha = other) :
    Kept records head (some repo) id ↔ ∀ sha, head repo sha → VersionAt records id (· = sha) := by
  constructor
  · rintro ⟨record, member, named, anchored⟩ sha shown
    obtain ⟨stamp, found⟩ := Option.isSome_iff_exists.mp (stamped.2 record member named)
    exact ⟨record, member, named, stamp, found, anchored stamp found sha shown⟩
  · intro versions
    by_cases shown : ∃ sha, head repo sha
    · obtain ⟨sha, shown⟩ := shown
      obtain ⟨record, member, named, stamp, found, rfl⟩ := versions sha shown
      refine ⟨record, member, named, fun other found' sha shown' => ?_⟩
      obtain rfl := Option.some.inj (found.symm.trans found')
      exact unique _ _ shown shown'
    · obtain ⟨record, member, named⟩ := stamped.1
      exact ⟨record, member, named, fun _ _ sha shown' => absurd ⟨sha, shown'⟩ shown⟩

/-- A version at one of two commits is a version at either. -/
theorem versionAt_or {commit other : String → Prop} :
    (VersionAt records id fun sha => commit sha ∨ other sha) ↔
      VersionAt records id commit ∨ VersionAt records id other := by
  simp only [VersionAt, and_or_left, exists_or]

/-- A repository shows at most one of a settled, an outdated and a lost head. -/
theorem owned_agreement {repo : String} {version : String → Prop} :
    ((∀ sha, FoldedHead records repo sha → version sha) ↔
        ∀ sha, CurrentHead records repo sha → version sha) ↔
      ∀ sha, OutdatedHead records repo sha ∨ LostHead records repo sha → version sha := by
  simp only [foldedHead_iff, currentHead_iff]
  constructor
  · rintro agree sha (⟨never, noCurrent, shown⟩ | ⟨current, ever⟩)
    · refine agree.mpr ?_ sha (Or.inr ⟨never, noCurrent, shown⟩)
      rintro head (settled | lost)
      · exact absurd settled.1 (noCurrent head)
      · exact absurd lost.1 (noCurrent head)
    · refine agree.mp ?_ sha (Or.inr ⟨current, ever⟩)
      rintro head (settled | outdated)
      · exact absurd ever settled.2
      · exact absurd ever outdated.1
  · intro shown
    constructor
    · rintro folded sha (settled | lost)
      · exact folded sha (Or.inl settled)
      · exact shown sha (Or.inr lost)
    · rintro current sha (settled | outdated)
      · exact current sha (Or.inl settled)
      · exact shown sha (Or.inl outdated)

/-- What two alternatives share does not tell them apart. -/
private theorem or_iff_or_left {shared left right : Prop} :
    (shared ∨ left ↔ shared ∨ right) ↔ shared ∨ (left ↔ right) := by
  by_cases holds : shared <;> simp [holds]

/-- A record that is no version of a repository is kept alike. -/
theorem kept_collapse {head : String → String → Prop} {owner : Option String}
    (untouched : ¬ Touched records id) :
    Kept (collapseRepositories records) head owner id ↔ Kept records head owner id := by
  constructor
  · rintro ⟨record, member, named, anchored⟩
    exact ⟨record, mem_of_mem_collapse member, named, anchored⟩
  · rintro ⟨record, member, rfl, anchored⟩
    exact ⟨record, mem_collapse_of_untouched untouched member, rfl, anchored⟩

/-- A stamped id is kept over both slices or over neither. -/
theorem kept_agreement (stamped : Stamped records id) :
    (Kept records (FoldedHead records) (index.ownerOf id) id ↔
        Kept records (CurrentHead records) (index.ownerOf id) id) ↔
      (∀ repo, index.ownerOf id = some repo → ∀ sha,
        OutdatedHead records repo sha ∨ LostHead records repo sha →
          VersionAt records id (· = sha)) ∧
      (index.ownerOf id = none →
        (VersionAt records id fun sha => ∃ repo, SettledHead records repo sha) ∨
          ((VersionAt records id fun sha => ∃ repo, OutdatedHead records repo sha) ↔
            VersionAt records id fun sha => ∃ repo, LostHead records repo sha)) := by
  cases index.ownerOf id with
  | none =>
      simp only [kept_unowned stamped, foldedHead_iff, currentHead_iff, exists_or, versionAt_or,
        reduceCtorEq, IsEmpty.forall_iff, implies_true, true_and, forall_const, or_iff_or_left]
  | some repo =>
      have unique : ∀ sha other, CurrentHead records repo sha → CurrentHead records repo other →
          sha = other := fun sha other first second =>
        foldedHead_unique (foldedHead_collapse.mpr first) (foldedHead_collapse.mpr second)
      rw [kept_owned stamped fun _ _ => foldedHead_unique, kept_owned stamped unique,
        owned_agreement]
      simp

/-- Where both slices have heads, an id is dropped alike iff it does not show the difference. -/
theorem mem_nonHead_agreement (unstamped : RepositoriesUnstamped records)
    (folded : ∃ repo sha, FoldedHead records repo sha)
    (current : ∃ repo sha, CurrentHead records repo sha) :
    (id ∈ nonHeadCurrentRecordIds records index ↔
        id ∈ nonHeadCurrentRecordIds (collapseRepositories records) index) ↔
      HeadsUnnoticed records index id := by
  have heads : FoldedHead (collapseRepositories records) = CurrentHead records :=
    funext fun repo => funext fun sha => propext foldedHead_collapse
  simp only [mem_nonHeadCurrentRecordIds, folded, true_and, heads, current]
  by_cases touched : Touched records id
  · -- The slice keeps a touched id, so the collapsed slice must keep what it has of it.
    have bare := not_stamped_of_touched unstamped touched
    have kept : ¬ ((∃ record ∈ records, record.id = id) ∧
        ¬ Kept records (FoldedHead records) (index.ownerOf id) id) := fun ⟨present, dropped⟩ =>
      dropped (kept_of_not_stamped present bare)
    rw [iff_false_left kept, not_and, not_not]
    constructor
    · intro keeps
      exact ⟨fun _ stamped => absurd stamped bare, fun stamped => absurd stamped bare,
        fun _ _ => keeps⟩
    · exact fun unnoticed => unnoticed.touched touched current
  · have present : (∃ record ∈ collapseRepositories records, record.id = id) ↔
        ∃ record ∈ records, record.id = id := by
      constructor
      · rintro ⟨record, member, named⟩
        exact ⟨record, mem_of_mem_collapse member, named⟩
      · rintro ⟨record, member, rfl⟩
        exact ⟨record, mem_collapse_of_untouched touched member, rfl⟩
    rw [present, kept_collapse touched]
    by_cases stamped : Stamped records id
    · simp only [stamped.1, true_and, not_iff_not]
      rw [kept_agreement stamped]
      constructor
      · rintro ⟨owned, unowned⟩
        exact ⟨fun repo _ => owned repo, fun _ => unowned, fun touched' => absurd touched' touched⟩
      · exact fun unnoticed => ⟨fun repo => unnoticed.owned repo stamped,
          unnoticed.unowned stamped⟩
    · have dropped : ∀ head : String → String → Prop,
          ¬ ((∃ record ∈ records, record.id = id) ∧ ¬ Kept records head (index.ownerOf id) id) :=
        fun head ⟨present, dropped⟩ => dropped (kept_of_not_stamped present stamped)
      simp only [dropped, true_iff]
      exact ⟨fun _ stamped' => absurd stamped' stamped, fun stamped' => absurd stamped' stamped,
        fun touched' => absurd touched' touched⟩

/-- Without any head there is nothing to notice. -/
theorem unnoticed_of_no_head (folded : ¬ ∃ repo sha, FoldedHead records repo sha)
    (current : ¬ ∃ repo sha, CurrentHead records repo sha) : HeadsUnnoticed records index id := by
  have outdated : ∀ repo sha, ¬ OutdatedHead records repo sha := fun repo sha shown =>
    folded ⟨repo, sha, foldedHead_iff.mpr (Or.inr shown)⟩
  have lost : ∀ repo sha, ¬ LostHead records repo sha := fun repo sha shown =>
    current ⟨repo, sha, shown.1⟩
  constructor
  · rintro repo - - sha (shown | shown)
    · exact absurd shown (outdated repo sha)
    · exact absurd shown (lost repo sha)
  · intro _ _
    simp [outdated, lost]
  · exact fun _ shown => absurd shown current

/-- HEAD anchoring reads the current state exactly when some head is settled, or outdated and
lost heads exist only together, and no id shows that a head is outdated or lost. -/
theorem headAnchoringCollapses_iff (unstamped : RepositoriesUnstamped records) :
    HeadAnchoringCollapses records index ↔
      ((∃ repo sha, SettledHead records repo sha) ∨
        ((∃ repo sha, OutdatedHead records repo sha) ↔ ∃ repo sha, LostHead records repo sha)) ∧
      ∀ id, HeadsUnnoticed records index id := by
  have snapshot : storeHasSourceSnapshot records =
        storeHasSourceSnapshot (collapseRepositories records) ↔
      ((∃ repo sha, FoldedHead records repo sha) ↔ ∃ repo sha, CurrentHead records repo sha) := by
    rw [Bool.eq_iff_iff, storeHasSourceSnapshot_iff, storeHasSourceSnapshot_iff]
    simp only [foldedHead_collapse]
  have anyHead : ((∃ repo sha, FoldedHead records repo sha) ↔
        ∃ repo sha, CurrentHead records repo sha) ↔
      ((∃ repo sha, SettledHead records repo sha) ∨
        ((∃ repo sha, OutdatedHead records repo sha) ↔
          ∃ repo sha, LostHead records repo sha)) := by
    simp only [foldedHead_iff, currentHead_iff, exists_or, or_iff_or_left]
  rw [← anyHead, ← snapshot]
  constructor
  · rintro ⟨sameSnapshot, sameIds⟩
    refine ⟨sameSnapshot, fun id => ?_⟩
    by_cases folded : ∃ repo sha, FoldedHead records repo sha
    · rw [← mem_nonHead_agreement unstamped folded ((snapshot.mp sameSnapshot).mp folded), sameIds]
    · exact unnoticed_of_no_head folded (mt (snapshot.mp sameSnapshot).mpr folded)
  · rintro ⟨sameSnapshot, unnoticed⟩
    refine ⟨sameSnapshot, Std.ExtTreeSet.ext_mem fun id => ?_⟩
    by_cases folded : ∃ repo sha, FoldedHead records repo sha
    · exact (mem_nonHead_agreement unstamped folded ((snapshot.mp sameSnapshot).mp folded)).mpr
        (unnoticed id)
    · have current : ¬ ∃ repo sha, CurrentHead records repo sha :=
        mt (snapshot.mp sameSnapshot).mpr folded
      simp only [mem_nonHeadCurrentRecordIds, foldedHead_collapse, folded, current, false_and]

end Agreement

/-- A repository whose snapshot was retracted and stamped again. -/
def revivedRepository : List GraphRecord := [
  .node {
    id := "codegraph:v4:repo"
    kind := .repository
    schemaVersion := 4
    rest := [("source_snapshot.head.sha", "c1")] },
  .tombstone {
    id := "agent_memory:v1:tombstone"
    schemaVersion := 1
    deletedId := "codegraph:v4:repo" },
  .node {
    id := "codegraph:v4:repo"
    kind := .repository
    schemaVersion := 4
    rest := [("source_snapshot.head.sha", "c2")] }]

/-- The equivalence at this history. -/
theorem revivedRepository_collapses_iff :
    HeadAnchoringCollapses revivedRepository (RepositoryIndex.build revivedRepository) ↔
      ((∃ repo sha, SettledHead revivedRepository repo sha) ∨
        ((∃ repo sha, OutdatedHead revivedRepository repo sha) ↔
          ∃ repo sha, LostHead revivedRepository repo sha)) ∧
      ∀ id, HeadsUnnoticed revivedRepository (RepositoryIndex.build revivedRepository) id :=
  headAnchoringCollapses_iff (by simp [RepositoriesUnstamped, revivedRepository])

/-- The append-only read anchors nothing, the current state at the new snapshot. -/
theorem revivedRepository_not_collapses :
    ¬ HeadAnchoringCollapses revivedRepository (RepositoryIndex.build revivedRepository) := by
  intro collapses
  have snapshot := collapses.snapshot
  revert snapshot
  decide

end Egregore
