import Egregore.Base.Saturation
import Egregore.Query.RepoSpec

/-!
# The repository catalog

`RepositoryIndex::catalog` in `query/repo.rs`: one entry for each live repository, under its
highest schema version, with a selector that names it. A handle is the selector only when it
resolves to the repository itself, so that the selectors of a catalog lead back to its entries.
`catalog_roundTrips` states that, with each live repository in the catalog once.
-/

namespace Egregore

open Base

/-- `RecencyKind`. -/
inductive RecencyKind where
  | commit | ingestTimestamp
  deriving DecidableEq, Repr

/-- `RepositoryCatalogEntry`. -/
structure RepositoryCatalogEntry where
  repositoryId : String
  identitySource : Option String
  selector : String
  selectorCollision : Bool
  collidingSelector : Option String
  nodeCount : Nat
  recencyKind : Option RecencyKind
  recencyHandle : Option String
  deriving DecidableEq, Repr

/-- `catalog_recency`: the commit of the source snapshot, or else when the node was ingested. -/
def RepositoryEntry.catalogRecency (entry : RepositoryEntry) :
    Option RecencyKind × Option String :=
  match entry.snapshotCommit, entry.ingestedAt with
  | some sha, _ => (some .commit, some sha)
  | none, some ingestedAt => (some .ingestTimestamp, some ingestedAt)
  | none, none => (none, none)

namespace RepositoryIndex

variable (index : RepositoryIndex)

/-- `catalog_entry`. -/
def catalogEntry (id : String) : Option RepositoryCatalogEntry :=
  index.repos[id]?.map fun entry =>
    let own := index.resolveSelector entry.display = .ok id
    let recency := entry.catalogRecency
    { repositoryId := id
      identitySource := entry.identitySource
      selector := if own then entry.display else id
      selectorCollision := !decide own
      collidingSelector := if own then none else some entry.display
      nodeCount := index.owner.toList.countP fun owned => owned.2 = id
      recencyKind := recency.1
      recencyHandle := recency.2 }

/-- The IDs of highest version, and those that have no version. -/
def currentIds : StrSet :=
  let highest : StrSet := (index.highestVersion.toList.map Prod.snd).foldl (·.insert ·) ∅
  index.repos.keys.foldl (fun current id =>
    if index.highestVersion.contains id then current else current.insert id) highest

/-- `catalog`. -/
def catalog : List RepositoryCatalogEntry := index.currentIds.toList.filterMap index.catalogEntry

end RepositoryIndex

/-! ### The highest version -/

/-- A repository of the slice: some node is one, and its ID is not deleted. -/
def LiveRepository (records : List GraphRecord) (id : String) : Prop :=
  (∃ node, .node node ∈ records ∧ node.kind = .repository ∧ node.id = id) ∧
    (Liveness.new records).deleted id = false

/-- The IDs are one, or versions of one. -/
def OneRepository (id other : String) : Prop :=
  id = other ∨ ∃ version version' suffix, parseCodegraphId id = some (version, suffix) ∧
    parseCodegraphId other = some (version', suffix)

/-- Of the IDs that are versions of this one, none is higher. -/
structure HighestVersion (isLive : String → Prop) (id top : String) : Prop where
  live : isLive top
  one : OneRepository id top
  highest : ∀ other version version' suffix, isLive other →
    parseCodegraphId other = some (version, suffix) →
    parseCodegraphId top = some (version', suffix) → version ≤ version'

section Highest

variable {versions : List (Nat × String)} {best : Nat × String} {ids : List String}
  {id top suffix : String}

/-- A later version of the same number is preferred. -/
theorem highestOf_append_singleton (last : Nat × String) :
    highestOf (versions ++ [last]) = some (match highestOf versions with
      | some top => if top.1 ≤ last.1 then last else top
      | none => last) := by
  rw [highestOf, List.foldl_append, ← highestOf, List.foldl_cons, List.foldl_nil]
  cases highestOf versions with
  | none => rfl
  | some top =>
      dsimp only
      split <;> rfl

/-- The highest version is the greatest of them. -/
theorem highestOf_spec (found : highestOf versions = some best) :
    best ∈ versions ∧ ∀ entry ∈ versions, entry.1 ≤ best.1 := by
  induction versions using List.reverseRecOn generalizing best with
  | nil => cases found
  | append_singleton versions last ih =>
      rw [highestOf_append_singleton, Option.some.injEq] at found
      simp only [List.mem_append, List.mem_singleton]
      cases before : highestOf versions with
      | none =>
          obtain rfl : last = best := by simpa [before] using found
          have empty : versions = [] := by
            rcases List.eq_nil_or_concat versions with rfl | ⟨front, back, rfl⟩
            · rfl
            · rw [List.concat_eq_append, highestOf_append_singleton] at before
              cases before
          subst empty
          simp
      | some top =>
          obtain ⟨member, highest⟩ := ih before
          rw [before] at found
          dsimp only at found
          split at found
          · next least =>
            subst found
            refine ⟨.inr rfl, fun entry inside => ?_⟩
            rcases inside with inside | rfl
            · exact (highest entry inside).trans least
            · exact le_refl _
          · next greater =>
            subst found
            refine ⟨.inl member, fun entry inside => ?_⟩
            rcases inside with inside | rfl
            · exact highest entry inside
            · omega

/-- Among some versions there is a highest one. -/
theorem exists_highestOf (ne : versions ≠ []) : ∃ best, highestOf versions = some best := by
  obtain ⟨front, last, rfl⟩ := (List.eq_nil_or_concat versions).resolve_left ne
  rw [List.concat_eq_append, highestOf_append_singleton]
  exact ⟨_, rfl⟩

/-- The versions of a suffix. -/
def suffixVersions (ids : List String) (suffix : String) : List (Nat × String) :=
  ((ids.filterMap fun id => (parseCodegraphId id).map fun (version, suffix) =>
    (suffix, (version, id))).filter fun pair => pair.1 = suffix).map Prod.snd

/-- The versions of a suffix are those of the IDs with it. -/
theorem mem_suffixVersions {entry : Nat × String} : entry ∈ suffixVersions ids suffix ↔
    entry.2 ∈ ids ∧ parseCodegraphId entry.2 = some (entry.1, suffix) := by
  simp only [suffixVersions, List.mem_map, List.mem_filter, List.mem_filterMap, decide_eq_true_eq,
    Option.map_eq_some_iff]
  constructor
  · rintro ⟨⟨suffix', entry⟩, ⟨⟨id, member, ⟨version, suffix⟩, parsed, same⟩, rfl⟩, rfl⟩
    obtain ⟨rfl, rfl⟩ := Prod.mk.inj same
    exact ⟨member, parsed⟩
  · rintro ⟨member, parsed⟩
    exact ⟨(suffix, entry), ⟨⟨entry.2, member, (entry.1, suffix), parsed, rfl⟩, rfl⟩, rfl⟩

/-- Every version of a live ID is translated to the highest. -/
theorem getElem?_repoTranslation : (repoTranslation ids)[id]? = some top ↔
    id ∈ ids ∧ ∃ version suffix best, parseCodegraphId id = some (version, suffix) ∧
      highestOf (suffixVersions ids suffix) = some (best, top) := by
  let groups : StrMap (List (Nat × String)) := ids.foldl (pushEntry fun repo =>
    (parseCodegraphId repo).map fun (version, suffix) => (suffix, (version, repo))) ∅
  let pairs : List (String × String) := groups.toList.flatMap fun group =>
    match highestOf group.2 with
    | some highest => group.2.map fun entry => (entry.2, highest.2)
    | none => []
  have mem_pairs : ∀ id top, (id, top) ∈ pairs ↔
      id ∈ ids ∧ ∃ version suffix best, parseCodegraphId id = some (version, suffix) ∧
        highestOf (suffixVersions ids suffix) = some (best, top) := by
    intro id top
    have group : ∀ suffix versions, (suffix, versions) ∈ groups.toList ↔
        versions ≠ [] ∧ versions = suffixVersions ids suffix := fun suffix versions =>
      mem_toList_foldl_pushEntry_iff _ ids
    simp only [pairs, List.mem_flatMap]
    constructor
    · rintro ⟨⟨suffix, versions⟩, member, inside⟩
      obtain ⟨-, rfl⟩ := (group _ _).mp member
      cases found : highestOf (suffixVersions ids suffix) with
      | none => simp [found] at inside
      | some best =>
          simp only [found, List.mem_map, Prod.mk.injEq] at inside
          obtain ⟨entry, entered, rfl, rfl⟩ := inside
          obtain ⟨member, parsed⟩ := mem_suffixVersions.mp entered
          exact ⟨member, entry.1, suffix, best.1, parsed, found⟩
    · rintro ⟨member, version, suffix, best, parsed, found⟩
      have entered : (version, id) ∈ suffixVersions ids suffix :=
        mem_suffixVersions.mpr ⟨member, parsed⟩
      refine ⟨(suffix, suffixVersions ids suffix),
        (group _ _).mpr ⟨List.ne_nil_of_mem entered, rfl⟩, ?_⟩
      simp only [found, List.mem_map, Prod.mk.injEq]
      exact ⟨_, entered, rfl, trivial⟩
  have flat : repoTranslation ids = pairs.foldl (insertEntry some) ∅ := by
    rw [repoTranslation, List.foldl_flatMap]
    congr 1
    funext translation group
    cases highestOf group.2 with
    | none => rfl
    | some highest =>
        dsimp only
        rw [List.foldl_map]
        rfl
  rw [flat, getElem?_foldl_insertEntry, Std.ExtTreeMap.getElem?_empty, Option.or_none,
    List.filterMap_some, ← mem_pairs]
  constructor
  · intro found
    obtain ⟨⟨id', top'⟩, last, rfl⟩ := Option.map_eq_some_iff.mp found
    obtain ⟨member, same⟩ := List.mem_filter.mp (List.mem_of_getLast? last)
    obtain rfl : id' = id := by simpa using same
    exact member
  · intro member
    have inside : (id, top) ∈ pairs.filter fun pair => pair.1 = id :=
      List.mem_filter.mpr ⟨member, by simp⟩
    obtain ⟨⟨id', top'⟩, last⟩ := Option.ne_none_iff_exists'.mp
      (fun none => List.ne_nil_of_mem inside (List.getLast?_eq_none_iff.mp none))
    obtain ⟨member', same⟩ := List.mem_filter.mp (List.mem_of_getLast? last)
    obtain rfl : id' = id := by simpa using same
    -- All versions of a suffix are translated to the same ID.
    obtain ⟨-, version, suffix, best, parsed, found⟩ := (mem_pairs _ _).mp member
    obtain ⟨-, version', suffix', best', parsed', found'⟩ := (mem_pairs _ _).mp member'
    rw [parsed, Option.some.injEq, Prod.mk.injEq] at parsed'
    obtain ⟨-, rfl⟩ := parsed'
    rw [found, Option.some.injEq, Prod.mk.injEq] at found'
    obtain ⟨-, rfl⟩ := found'
    rw [last, Option.map_some]

end Highest

/-! ### The current repositories -/

section Current

variable {records : List GraphRecord} {id other : String}

/-- The map holds the live repositories. -/
theorem mem_keys_liveRepositories :
    id ∈ (liveRepositories records).keys ↔ LiveRepository records id := by
  rw [Std.ExtTreeMap.mem_keys, Std.ExtTreeMap.mem_iff_isSome_getElem?, getElem?_liveRepositories,
    LiveRepository]
  cases deleted : (Liveness.new records).deleted id with
  | true => simp
  | false =>
      simp only [Bool.false_eq_true, if_false, and_true]
      constructor
      · intro found
        obtain ⟨entry, found⟩ := Option.isSome_iff_exists.mp found
        obtain ⟨record, last, read⟩ := Option.bind_eq_some_iff.mp found
        obtain ⟨node, isNode, rfl⟩ := Option.map_eq_some_iff.mp read
        obtain ⟨member, writes⟩ := List.mem_filter.mp (List.mem_of_getLast? last)
        cases record with
        | node record =>
            rw [GraphRecord.writesRepositoryNode, Bool.and_eq_true, decide_eq_true_eq,
              decide_eq_true_eq] at writes
            exact ⟨record, member, writes⟩
        | edge edge => cases writes
        | tombstone tombstone => cases writes
      · rintro ⟨node, member, kind, rfl⟩
        have inside : .node node ∈ records.filter (GraphRecord.writesRepositoryNode node.id) :=
          List.mem_filter.mpr ⟨member, by simp [GraphRecord.writesRepositoryNode, kind]⟩
        obtain ⟨record, last⟩ := Option.ne_none_iff_exists'.mp
          (fun none => List.ne_nil_of_mem inside (List.getLast?_eq_none_iff.mp none))
        have writes := (List.mem_filter.mp (List.mem_of_getLast? last)).2
        rw [lastEvent, last]
        cases record with
        | node record => rfl
        | edge edge => cases writes
        | tombstone tombstone => cases writes

/-- The highest version of an ID, or the ID itself. -/
def RepositoryIndex.currentOf (index : RepositoryIndex) (id : String) : String :=
  index.highestVersion.getD id id

/-- The highest version of a repository is that of its suffix. -/
theorem getElem?_highestVersion {top : String} :
    (RepositoryIndex.build records).highestVersion[id]? = some top ↔
      LiveRepository records id ∧ ∃ version suffix best,
        parseCodegraphId id = some (version, suffix) ∧
        highestOf (suffixVersions (liveRepositories records).keys suffix) = some (best, top) := by
  rw [← mem_keys_liveRepositories]
  exact getElem?_repoTranslation

/-- A current ID is the highest of its suffix, or has no version. -/
theorem mem_currentIds : id ∈ (RepositoryIndex.build records).currentIds ↔
    (∃ other : String, (RepositoryIndex.build records).highestVersion[other]? = some id) ∨
      LiveRepository records id ∧
        (RepositoryIndex.build records).highestVersion[id]? = none := by
  have kept : ∀ (keys : List String) (set : StrSet),
      (keys.foldl (fun current id =>
        if (RepositoryIndex.build records).highestVersion.contains id then current
        else current.insert id) set) =
      (keys.filter fun id => !(RepositoryIndex.build records).highestVersion.contains id).foldl
        (fun current id => current.insert id) set := by
    intro keys set
    rw [List.foldl_filter]
    congr 1
    funext current id
    cases (RepositoryIndex.build records).highestVersion.contains id <;> rfl
  have absent : (RepositoryIndex.build records).highestVersion[id]? = none ↔
      (RepositoryIndex.build records).highestVersion.contains id = false := by
    rw [← Option.not_isSome_iff_eq_none, ← Std.ExtTreeMap.mem_iff_isSome_getElem?,
      Std.ExtTreeMap.mem_iff_contains, Bool.not_eq_true]
  rw [RepositoryIndex.currentIds, kept, mem_foldl_insert, mem_foldl_insert, List.mem_filter,
    show (RepositoryIndex.build records).repos = liveRepositories records from rfl,
    mem_keys_liveRepositories, Bool.not_eq_true', absent, List.mem_map]
  refine or_congr_left ?_
  constructor
  · rintro (none | ⟨⟨other, top⟩, member, rfl⟩)
    · exact absurd none Std.ExtTreeSet.not_mem_empty
    · exact ⟨other, Std.ExtTreeMap.mem_toList_iff_getElem?_eq_some.mp member⟩
  · rintro ⟨other, found⟩
    exact .inr ⟨(other, id), Std.ExtTreeMap.mem_toList_iff_getElem?_eq_some.mpr found, rfl⟩

/-- A live ID is translated to the highest of its versions. -/
theorem currentOf_cases (live : LiveRepository records id) :
    (parseCodegraphId id = none ∧
        (RepositoryIndex.build records).highestVersion[id]? = none ∧
        (RepositoryIndex.build records).currentOf id = id) ∨
      ∃ version suffix best, parseCodegraphId id = some (version, suffix) ∧
        (RepositoryIndex.build records).highestVersion[id]? =
          some ((RepositoryIndex.build records).currentOf id) ∧
        highestOf (suffixVersions (liveRepositories records).keys suffix) =
          some (best, (RepositoryIndex.build records).currentOf id) := by
  cases parsed : parseCodegraphId id with
  | none =>
      have absent : (RepositoryIndex.build records).highestVersion[id]? = none := by
        rw [Option.eq_none_iff_forall_ne_some]
        intro top found
        obtain ⟨-, version, suffix, best, parsed', -⟩ := getElem?_highestVersion.mp found
        rw [parsed] at parsed'
        cases parsed'
      left
      refine ⟨rfl, absent, ?_⟩
      rw [RepositoryIndex.currentOf, Std.ExtTreeMap.getD_eq_getD_getElem?, absent, Option.getD_none]
  | some pair =>
      obtain ⟨version, suffix⟩ := pair
      have entered : (version, id) ∈ suffixVersions (liveRepositories records).keys suffix :=
        mem_suffixVersions.mpr ⟨mem_keys_liveRepositories.mpr live, parsed⟩
      obtain ⟨⟨best, top⟩, highest⟩ := exists_highestOf (List.ne_nil_of_mem entered)
      have found : (RepositoryIndex.build records).highestVersion[id]? = some top :=
        getElem?_highestVersion.mpr ⟨live, version, suffix, best, parsed, highest⟩
      have current : (RepositoryIndex.build records).currentOf id = top := by
        rw [RepositoryIndex.currentOf, Std.ExtTreeMap.getD_eq_getD_getElem?, found,
          Option.getD_some]
      right
      rw [current]
      exact ⟨version, suffix, best, rfl, found, highest⟩

/-- The current ID of a live repository is its highest version. -/
theorem highestVersion_currentOf (live : LiveRepository records id) :
    HighestVersion (LiveRepository records) id ((RepositoryIndex.build records).currentOf id) := by
  rcases currentOf_cases live with ⟨parsed, -, current⟩ | ⟨version, suffix, best, parsed, -, highest⟩
  · rw [current]
    refine ⟨live, .inl rfl, fun other version version' suffix _ _ parsed' => ?_⟩
    rw [parsed] at parsed'
    cases parsed'
  · obtain ⟨member, greatest⟩ := highestOf_spec highest
    obtain ⟨inside, top⟩ := mem_suffixVersions.mp member
    refine ⟨mem_keys_liveRepositories.mp inside, .inr ⟨version, best, suffix, parsed, top⟩, ?_⟩
    intro other version version' suffix' otherLive otherParsed topParsed
    rw [top, Option.some.injEq, Prod.mk.injEq] at topParsed
    obtain ⟨rfl, rfl⟩ := topParsed
    exact greatest (version, other)
      (mem_suffixVersions.mpr ⟨mem_keys_liveRepositories.mpr otherLive, otherParsed⟩)

/-- So it is a current ID. -/
theorem currentOf_mem_currentIds (live : LiveRepository records id) :
    (RepositoryIndex.build records).currentOf id ∈ (RepositoryIndex.build records).currentIds := by
  refine mem_currentIds.mpr ?_
  rcases currentOf_cases live with ⟨-, absent, current⟩ | ⟨version, suffix, best, -, found, -⟩
  · rw [current]
    exact .inr ⟨live, absent⟩
  · exact .inl ⟨id, found⟩

/-- Versions of one repository are translated to one ID. -/
theorem currentOf_congr (live : LiveRepository records id) (live' : LiveRepository records other)
    (one : OneRepository id other) :
    (RepositoryIndex.build records).currentOf id =
      (RepositoryIndex.build records).currentOf other := by
  rcases one with rfl | ⟨version, version', suffix, parsed, parsed'⟩
  · rfl
  · rcases currentOf_cases live with ⟨none, -⟩ | ⟨_, _, _, same, -, highest⟩
    · rw [parsed] at none
      cases none
    · rcases currentOf_cases live' with ⟨none, -⟩ | ⟨_, _, _, same', -, highest'⟩
      · rw [parsed'] at none
        cases none
      · rw [parsed, Option.some.injEq, Prod.mk.injEq] at same
        rw [parsed', Option.some.injEq, Prod.mk.injEq] at same'
        rw [← same.2] at highest
        rw [← same'.2, highest, Option.some.injEq, Prod.mk.injEq] at highest'
        exact highest'.2

/-- A current ID is its own. -/
theorem currentOf_of_mem (member : id ∈ (RepositoryIndex.build records).currentIds) :
    LiveRepository records id ∧ (RepositoryIndex.build records).currentOf id = id := by
  rcases mem_currentIds.mp member with ⟨other, found⟩ | ⟨live, absent⟩
  · have otherLive := (getElem?_highestVersion.mp found).1
    have current : (RepositoryIndex.build records).currentOf other = id := by
      rw [RepositoryIndex.currentOf, Std.ExtTreeMap.getD_eq_getD_getElem?, found, Option.getD_some]
    have highest := highestVersion_currentOf otherLive
    rw [current] at highest
    exact ⟨highest.live, (currentOf_congr otherLive highest.live highest.one).symm.trans current⟩
  · refine ⟨live, ?_⟩
    rw [RepositoryIndex.currentOf, Std.ExtTreeMap.getD_eq_getD_getElem?, absent, Option.getD_none]

end Current

/-! ### The catalog -/

section Catalog

variable {records : List GraphRecord} {id : String} {entry other : RepositoryCatalogEntry}

/-- A live ID selects the highest of its versions. -/
theorem resolveSelector_of_live (live : LiveRepository records id) :
    (RepositoryIndex.build records).resolveSelector id =
      .ok ((RepositoryIndex.build records).currentOf id) := by
  have known : (RepositoryIndex.build records).repos.contains id = true := by
    rw [← Std.ExtTreeMap.mem_iff_contains, ← Std.ExtTreeMap.mem_keys]
    exact mem_keys_liveRepositories.mpr live
  rw [RepositoryIndex.resolveSelector, if_pos known]
  rfl

/-- The catalog has an entry for each current ID that can be shown. -/
theorem mem_catalog : entry ∈ (RepositoryIndex.build records).catalog ↔
    ∃ id ∈ (RepositoryIndex.build records).currentIds,
      (RepositoryIndex.build records).catalogEntry id = some entry := by
  simp only [RepositoryIndex.catalog, List.mem_filterMap, Std.ExtTreeSet.mem_toList]

/-- An entry shows its own ID. -/
theorem repositoryId_of_catalogEntry {index : RepositoryIndex}
    (listed : index.catalogEntry id = some entry) : entry.repositoryId = id := by
  obtain ⟨stored, -, rfl⟩ := Option.map_eq_some_iff.mp listed
  rfl

/-- A live ID has an entry. -/
theorem exists_catalogEntry (live : LiveRepository records id) :
    ∃ entry, (RepositoryIndex.build records).catalogEntry id = some entry := by
  have known := mem_keys_liveRepositories.mpr live
  rw [Std.ExtTreeMap.mem_keys, Std.ExtTreeMap.mem_iff_isSome_getElem?] at known
  obtain ⟨stored, found⟩ := Option.isSome_iff_exists.mp known
  have stored' : (RepositoryIndex.build records).repos[id]? = some stored := found
  exact ⟨_, by rw [RepositoryIndex.catalogEntry, stored']; rfl⟩

/-- Entries of one repository are one. -/
theorem eq_of_repositoryId (member : entry ∈ (RepositoryIndex.build records).catalog)
    (member' : other ∈ (RepositoryIndex.build records).catalog)
    (same : entry.repositoryId = other.repositoryId) : entry = other := by
  obtain ⟨id, -, listed⟩ := mem_catalog.mp member
  obtain ⟨id', -, listed'⟩ := mem_catalog.mp member'
  obtain rfl : id = id' := by
    rw [← repositoryId_of_catalogEntry listed, ← repositoryId_of_catalogEntry listed', same]
  exact Option.some.inj (listed.symm.trans listed')

/-- A selector leads to its own repository, be it the handle or the ID. -/
theorem resolveSelector_selector (member : entry ∈ (RepositoryIndex.build records).catalog) :
    (RepositoryIndex.build records).resolveSelector entry.selector = .ok entry.repositoryId := by
  obtain ⟨id, current, listed⟩ := mem_catalog.mp member
  obtain ⟨stored, -, rfl⟩ := Option.map_eq_some_iff.mp listed
  dsimp only
  split
  · next own => exact own
  · obtain ⟨live, same⟩ := currentOf_of_mem current
    rw [resolveSelector_of_live live, same]

/-- No entry is listed twice. -/
theorem nodup_catalog : (RepositoryIndex.build records).catalog.Nodup := by
  refine List.Nodup.filterMap (fun id id' entry listed listed' => ?_) ?_
  · rw [← repositoryId_of_catalogEntry (Option.mem_def.mp listed),
      ← repositoryId_of_catalogEntry (Option.mem_def.mp listed')]
  · refine Std.ExtTreeSet.ordered_toList.imp fun less same => ?_
    rw [same, (Std.ReflCmp.compare_self : byteOrder _ _ = .eq)] at less
    cases less

end Catalog

/-- The selectors of the catalog lead back to its entries, and every live repository has one
entry, under its highest version. -/
structure CatalogRoundTrips (records : List GraphRecord) : Prop where
  resolves : ∀ entry ∈ (RepositoryIndex.build records).catalog,
    (RepositoryIndex.build records).resolveSelector entry.selector = .ok entry.repositoryId
  selectors : ((RepositoryIndex.build records).catalog.map (·.selector)).Nodup
  represents : ∀ id, LiveRepository records id →
    ∃ entry ∈ (RepositoryIndex.build records).catalog,
      HighestVersion (LiveRepository records) id entry.repositoryId ∧
      ∀ other ∈ (RepositoryIndex.build records).catalog,
        OneRepository id other.repositoryId → other = entry

/-- Every selector of the catalog resolves to its entry, and every live repository has one. -/
theorem catalog_roundTrips (records : List GraphRecord) : CatalogRoundTrips records where
  resolves _ member := resolveSelector_selector member
  selectors := by
    refine List.Nodup.map_on (fun entry member other member' same => ?_) nodup_catalog
    have resolved := resolveSelector_selector member
    rw [same, resolveSelector_selector member', Except.ok.injEq] at resolved
    exact eq_of_repositoryId member member' resolved.symm
  represents id live := by
    have current := currentOf_mem_currentIds live
    have highest := highestVersion_currentOf live
    obtain ⟨entry, listed⟩ := exists_catalogEntry highest.live
    have named := repositoryId_of_catalogEntry listed
    have member := mem_catalog.mpr ⟨_, current, listed⟩
    refine ⟨entry, member, named ▸ highest, fun other member' one => ?_⟩
    obtain ⟨id', current', listed'⟩ := mem_catalog.mp member'
    obtain ⟨live', same⟩ := currentOf_of_mem current'
    rw [repositoryId_of_catalogEntry listed'] at one
    refine eq_of_repositoryId member' member ?_
    rw [named, repositoryId_of_catalogEntry listed', currentOf_congr live live' one, same]

end Egregore
