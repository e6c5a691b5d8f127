import Egregore.Base.JsonText
import Egregore.Bundle

/-!
# What a bundle carries

Which records an exported bundle includes, which links it lists, and that it passes its own
verification. `exportLaw_iff` says for which slices that is what a bundle should hold: a root
that matches in two versions is included twice, and a link that two versions state is listed
twice.
-/

namespace Egregore.Bundle

open Base

section References

/-- The references of a record, each with its relation. -/
def Record.references : Record → List (String × String)
  | .edge record => [(record.source, record.label.asStr), (record.target, record.label.asStr)]
  | .node record => record.inlineReferences
  | .tombstone record => [(record.deletedId, "deleted_id")]

/-- Both lists of a record's references name the same targets. -/
theorem collectReferences_eq (record : Record) :
    collectReferences record = record.references.map Prod.fst := by
  cases record with
  | node record =>
      have field : ∀ (target : Option String) (relation : String),
          (target.toList.map (·, relation)).map Prod.fst = target.toList := by
        rintro (_ | _) relation <;> rfl
      have links : ∀ links : List EvidenceLink,
          (links.filterMap fun link => link.targetRecordId.map (·, link.relation)).map Prod.fst =
            links.filterMap EvidenceLink.targetRecordId := by
        intro links
        rw [List.map_filterMap]
        congr 1
        ext link
        cases link.targetRecordId <;> simp
      simp only [collectReferences, Record.references, Node.inlineReferences, List.map_append, field,
        links]
  | edge record => rfl
  | tombstone record => rfl

/-- The outgoing references of a record are those it names. -/
theorem isOutgoing_iff {record : Record} {target : String} :
    record.isOutgoing target = true ↔ target ∈ record.references.map Prod.fst := by
  rw [← collectReferences_eq]
  cases record with
  | node record => simp [Record.isOutgoing]
  | edge record => simp [Record.isOutgoing, collectReferences, @eq_comm _ target]
  | tombstone record => simp [Record.isOutgoing, collectReferences, @eq_comm _ target]

/-- Each reference makes two entries, one for each direction. -/
theorem adjacency_perm (record : Record) :
    record.adjacency.Perm (record.references.flatMap fun reference =>
      [(record.id, reference.1, reference.2), (reference.1, record.id, reference.2)]) := by
  cases record with
  | node record => exact .refl _
  | edge record => exact .cons _ (.swap _ _ _)
  | tombstone record => exact .refl _

/-- A reference is listed at both of its ends. -/
theorem mem_adjacency {record : Record} {id other relation : String} :
    (id, other, relation) ∈ record.adjacency ↔
      (record.id = id ∧ (other, relation) ∈ record.references) ∨
        (record.id = other ∧ (id, relation) ∈ record.references) := by
  rw [(adjacency_perm record).mem_iff, List.mem_flatMap]
  simp only [List.mem_cons, List.not_mem_nil, or_false, Prod.mk.injEq]
  constructor
  · rintro ⟨⟨target, label⟩, member, ⟨rfl, rfl, rfl⟩ | ⟨rfl, rfl, rfl⟩⟩
    · exact .inl ⟨rfl, member⟩
    · exact .inr ⟨rfl, member⟩
  · rintro (⟨rfl, member⟩ | ⟨rfl, member⟩)
    · exact ⟨_, member, .inl ⟨rfl, rfl, rfl⟩⟩
    · exact ⟨_, member, .inr ⟨rfl, rfl, rfl⟩⟩

/-- The entries of an ID that name another record than the one that makes them. -/
theorem count_adjacency {record : Record} {id target relation : String}
    (other : record.id ≠ target) :
    ((record.adjacency.filter fun entry => entry.1 = id).map Prod.snd).count (target, relation) =
      if record.id = id then record.references.count (target, relation) else 0 := by
  rw [(((adjacency_perm record).filter _).map Prod.snd).count_eq]
  induction record.references with
  | nil => simp
  | cons reference references ih =>
      rw [List.flatMap_cons, List.filter_append, List.map_append, List.count_append, ih]
      by_cases own : record.id = id
      · subst own
        by_cases reverse : reference.1 = record.id
        · have apart : reference ≠ (target, relation) := by
            rintro rfl
            exact other reverse.symm
          simp [reverse, other, apart]
        · simp [reverse, List.count_cons, Nat.add_comm]
      · by_cases reverse : reference.1 = id <;> simp [own, reverse, other]

end References

section Versions

variable {records : List Record}

/-- The versions of an ID, in the order of the slice. -/
def versions (records : List Record) (id : String) : List Record :=
  records.filter fun record => record.id = id

/-- The latest version of an ID. -/
def latestVersion (records : List Record) (id : String) : Option Record :=
  (versions records id).getLast?

/-- An ID that a record of the slice carries. -/
def HasRecord (records : List Record) (id : String) : Prop := ∃ record ∈ records, record.id = id

/-- The map holds the latest version of each record. -/
theorem getElem?_recordsById (id : String) :
    (recordsById records)[id]? = latestVersion records id := by
  rw [recordsById, getElem?_foldl_insertEntry]
  have entries : (records.filterMap fun record => some (record.id, record)).filter
      (fun pair => pair.1 = id) = (versions records id).map fun record => (record.id, record) := by
    rw [List.filterMap_eq_map', List.filter_map]
    rfl
  rw [entries, List.getLast?_map, latestVersion]
  cases (versions records id).getLast? <;> simp

/-- That version is one of the records, under its ID. -/
theorem latestVersion_id {id : String} {record : Record}
    (latest : latestVersion records id = some record) : record ∈ records ∧ record.id = id := by
  have member := List.mem_of_getLast? latest
  rw [versions, List.mem_filter, decide_eq_true_eq] at member
  exact member

/-- There is a record where there is a latest version. -/
theorem hasRecord_iff {id : String} :
    HasRecord records id ↔ ∃ record, latestVersion records id = some record := by
  constructor
  · rintro ⟨record, member, named⟩
    have nonempty : versions records id ≠ [] :=
      List.ne_nil_of_mem (List.mem_filter.mpr ⟨member, decide_eq_true named⟩)
    exact ⟨_, List.getLast?_eq_some_getLast nonempty⟩
  · rintro ⟨record, latest⟩
    exact ⟨record, latestVersion_id latest⟩

/-- So the map has the IDs with a record. -/
theorem contains_recordsById {id : String} :
    (recordsById records).contains id = true ↔ HasRecord records id := by
  rw [hasRecord_iff, ← Std.ExtTreeMap.mem_iff_contains, Std.ExtTreeMap.mem_iff_isSome_getElem?,
    getElem?_recordsById, Option.isSome_iff_exists]

/-- The lists collect the references of all versions. -/
theorem getD_adjacencyLists (id : String) :
    (adjacencyLists records).getD id [] =
      ((records.flatMap Record.adjacency).filter fun entry => entry.1 = id).map Prod.snd := by
  rw [adjacencyLists, getD_foldl_pushEntry, List.filterMap_some]

/-- So a neighbour is named by a version, or names one. -/
theorem mem_adjacencyLists {id other relation : String} :
    (other, relation) ∈ (adjacencyLists records).getD id [] ↔
      ∃ record ∈ records, (record.id = id ∧ (other, relation) ∈ record.references) ∨
        (record.id = other ∧ (id, relation) ∈ record.references) := by
  rw [getD_adjacencyLists]
  constructor
  · intro member
    obtain ⟨⟨key, pair⟩, filtered, rfl⟩ := List.mem_map.mp member
    obtain ⟨entered, rfl⟩ := by simpa using List.mem_filter.mp filtered
    obtain ⟨record, inSlice, entry⟩ := entered
    exact ⟨record, inSlice, mem_adjacency.mp entry⟩
  · rintro ⟨record, inSlice, either⟩
    refine List.mem_map.mpr ⟨(id, other, relation), ?_, rfl⟩
    refine List.mem_filter.mpr ⟨?_, by simp⟩
    exact List.mem_flatMap.mpr ⟨record, inSlice, mem_adjacency.mpr either⟩

/-- The entries of an ID that name a missing record are its own references, of all versions. -/
theorem count_adjacencyLists {id target relation : String} (missing : ¬ HasRecord records target) :
    ((adjacencyLists records).getD id []).count (target, relation) =
      ((versions records id).flatMap Record.references).count (target, relation) := by
  rw [getD_adjacencyLists, versions]
  induction records with
  | nil => simp
  | cons record records ih =>
      have other : record.id ≠ target := fun same => missing ⟨record, List.mem_cons_self, same⟩
      have rest : ¬ HasRecord records target := fun ⟨later, member, same⟩ =>
        missing ⟨later, List.mem_cons_of_mem _ member, same⟩
      rw [List.flatMap_cons, List.filter_append, List.map_append, List.count_append,
        count_adjacency other, ih rest]
      by_cases own : record.id = id <;> simp [own]

end Versions

section Closure

variable {records : List Record}

/-- A record of the first ID refers to the second, in any of its versions. -/
def RefersTo (records : List Record) (id other : String) : Prop :=
  ∃ record ∈ records, record.id = id ∧ other ∈ collectReferences record

/-- Two IDs with records, of which one refers to the other. -/
def Linked (records : List Record) (id other : String) : Prop :=
  (RefersTo records id other ∨ RefersTo records other id) ∧
    HasRecord records id ∧ HasRecord records other

/-- An ID that references connect to one of the roots. -/
def Connected (records roots : List Record) (id : String) : Prop :=
  ∃ root ∈ roots, Relation.ReflTransGen (Linked records) root.id id

/-- The neighbours with a record are the linked ones. -/
theorem mem_presentNeighbours {id other : String} :
    other ∈ presentNeighbours (recordsById records) (adjacencyLists records) id ↔
      Linked records id other := by
  rw [presentNeighbours, Linked]
  by_cases present : HasRecord records id
  · rw [if_pos (contains_recordsById.mpr present)]
    simp only [List.mem_filterMap, Prod.exists, present, true_and]
    constructor
    · rintro ⟨neighbour, relation, member, found⟩
      split at found
      · next known =>
          obtain rfl := Option.some.inj found
          refine ⟨?_, contains_recordsById.mp known⟩
          obtain ⟨record, inSlice, own | reverse⟩ := mem_adjacencyLists.mp member
          · refine .inl ⟨record, inSlice, own.1, ?_⟩
            rw [collectReferences_eq]
            exact List.mem_map.mpr ⟨_, own.2, rfl⟩
          · refine .inr ⟨record, inSlice, reverse.1, ?_⟩
            rw [collectReferences_eq]
            exact List.mem_map.mpr ⟨_, reverse.2, rfl⟩
      · simp at found
    · rintro ⟨own | reverse, known⟩
      · obtain ⟨record, inSlice, named, member⟩ := own
        rw [collectReferences_eq, List.mem_map] at member
        obtain ⟨⟨target, relation⟩, listed, rfl⟩ := member
        refine ⟨target, relation, mem_adjacencyLists.mpr ⟨record, inSlice, .inl ⟨named, listed⟩⟩, ?_⟩
        rw [if_pos (contains_recordsById.mpr known)]
      · obtain ⟨record, inSlice, named, member⟩ := reverse
        rw [collectReferences_eq, List.mem_map] at member
        obtain ⟨⟨target, relation⟩, listed, rfl⟩ := member
        refine ⟨other, relation, mem_adjacencyLists.mpr ⟨record, inSlice, .inr ⟨named, listed⟩⟩, ?_⟩
        rw [if_pos (contains_recordsById.mpr known)]
  · rw [if_neg (by rwa [contains_recordsById])]
    simp [present]

/-- The references of a version to IDs without a record, as the traversal lists them. -/
def listedLinks (records : List Record) (id : String) : List UnresolvedLink :=
  match latestVersion records id with
  | none => []
  | some record =>
      ((adjacencyLists records).getD id []).filterMap fun neighbour =>
        if !(recordsById records).contains neighbour.1 && record.isOutgoing neighbour.1 then
          some ⟨id, neighbour.1, neighbour.2⟩
        else none

/-- Including some IDs adds the latest version of each, and its links. -/
theorem foldl_includeRecord (ids : List String) (traversal : Traversal) :
    ids.foldl (fun traversal id =>
        includeRecord (recordsById records) (adjacencyLists records) id traversal) traversal =
      { includedRecords := traversal.includedRecords ++ ids.filterMap (latestVersion records)
        unresolvedLinks := traversal.unresolvedLinks ++ ids.flatMap (listedLinks records) } := by
  induction ids generalizing traversal with
  | nil => simp
  | cons id ids ih =>
      rw [List.foldl_cons, ih, includeRecord, getElem?_recordsById]
      cases latest : latestVersion records id with
      | none => simp [latest, listedLinks]
      | some record => simp [latest, listedLinks]

/-- A traversal includes the IDs connected to its roots: the roots as they come, and each other
one once. -/
theorem traverse_spec {roots : List Record} (inSlice : ∀ root ∈ roots, root ∈ records) :
    ∃ found : List String, found.Nodup ∧ (∀ id ∈ found, id ∉ roots.map Record.id) ∧
      traverse records (roots.map Record.id) = {
        includedRecords := (roots.map Record.id ++ found).filterMap (latestVersion records)
        unresolvedLinks := (roots.map Record.id ++ found).flatMap (listedLinks records) } ∧
      ∀ id, id ∈ roots.map Record.id ++ found ↔ Connected records roots id := by
  have queue : (roots.map Record.id).filter (recordsById records).contains =
      roots.map Record.id := by
    rw [List.filter_eq_self]
    intro id member
    obtain ⟨root, isRoot, rfl⟩ := List.mem_map.mp member
    exact contains_recordsById.mpr ⟨root, inSlice root isRoot, rfl⟩
  have inside : ∀ id, ∀ other ∈ presentNeighbours (recordsById records) (adjacencyLists records) id,
      other ∈ records.map Record.id := by
    intro id other member
    obtain ⟨_, _, record, known, rfl⟩ := mem_presentNeighbours.mp member
    exact List.mem_map.mpr ⟨record, known, rfl⟩
  obtain ⟨found, nodup, apart, visited, members⟩ := breadthFirst_spec inside
    (includeRecord (recordsById records) (adjacencyLists records)) (roots.map Record.id) {}
  refine ⟨found, nodup, apart, ?_, fun id => ?_⟩
  · rw [traverse]
    simp only [queue]
    have sized : (records.map Record.id).length = records.length := List.length_map _
    rw [← sized, visited, foldl_includeRecord]
    simp
  · rw [members, Connected]
    simp only [Reaches, mem_presentNeighbours]
    simp only [List.mem_map, exists_exists_and_eq_and]

end Closure

section Export

variable {env : BundleEnv} {records : List Record} {selector version : String}
  {bundle : EvidenceBundle}

/-- The records that a selector matches. -/
def matchedRecords (records : List Record) (selector : String) : List Record :=
  match splitSelector selector with
  | none => []
  | some (kind, value) => records.filter (Record.matchesSelector kind value)

/-- The roots are records. -/
theorem matchedRecords_subset : ∀ root ∈ matchedRecords records selector, root ∈ records := by
  intro root matched
  rw [matchedRecords] at matched
  split at matched
  · simp at matched
  · exact List.mem_of_mem_filter matched

/-- The roots that are found are those that match the selector. -/
theorem eq_matchedRecords {roots : List Record}
    (found : findRootRecords records selector = .ok roots) :
    roots = matchedRecords records selector := by
  cases parsed : splitSelector selector with
  | none => simp [findRootRecords, parsed] at found
  | some parts =>
      simp only [findRootRecords, parsed] at found
      simp only [matchedRecords, parsed]
      cases matched : records.filter (Record.matchesSelector parts.1 parts.2) with
      | nil => simp [matched] at found
      | cons root later =>
          simp only [matched] at found
          exact (Except.ok.inj found).symm

/-- What a successful export returns, and the checks it went through. -/
structure Exported (env : BundleEnv) (records : List Record) (selector : String)
    (bundle : EvidenceBundle) : Prop where
  rootIds : bundle.manifest.rootRecordIds = (matchedRecords records selector).map Record.id
  counts : bundle.manifest.includedRecordCounts = includedRecordCounts env bundle.records
  entries : bundle.records =
    ((traverse records ((matchedRecords records selector).map Record.id)).includedRecords.map
      (bundleRecord env)).insertionSort
        fun entry other => (recordOrder env entry.record other.record).isLE
  unresolvedLinks : bundle.unresolvedLinks =
    (traverse records ((matchedRecords records selector).map Record.id)).unresolvedLinks.insertionSort
      fun link other => (linkOrder link other).isLE
  covered : belowCoverage env bundle.records = false
  cited : (citationCoverage env bundle.records).2 = true

/-- A bundle that was handed over passed every check of the export. -/
theorem exported_of_exportBundle
    (exported : exportBundle env records selector version = .ok bundle) :
    Exported env records selector bundle := by
  rw [exportBundle] at exported
  cases found : findRootRecords records selector with
  | error failure => simp [found, bind, Except.bind] at exported
  | ok roots =>
      obtain rfl := eq_matchedRecords found
      simp only [found, bind, Except.bind, pure, Except.pure, throw, throwThe,
        MonadExceptOf.throw] at exported
      split at exported
      · simp at exported
      · next covered =>
          split at exported
          · simp at exported
          · next cited =>
              obtain rfl := Except.ok.inj exported
              exact ⟨rfl, rfl, rfl, rfl, by simpa using covered, by simpa using cited⟩

/-- What `export_bundle` promises: a bundle that verifies, with the latest version of each ID
connected to a root once, and with each reference to a missing record listed once. -/
structure ExportLaw (env : BundleEnv) (records : List Record) (selector : String)
    (bundle : EvidenceBundle) : Prop where
  verified : (verifyBundle env bundle).ok = true
  once : (bundle.records.map fun entry => entry.record.id).Nodup
  exact : ∀ entry, entry ∈ bundle.records ↔
    ∃ id record, Connected records (matchedRecords records selector) id ∧
      latestVersion records id = some record ∧ entry = bundleRecord env record
  scrubbed : ∀ record, firstUnscrubbedField (scrubRecord env record) = none
  listed : ∀ id record, Connected records (matchedRecords records selector) id →
    latestVersion records id = some record →
    ∀ target relation, (target, relation) ∈ record.references → ¬ HasRecord records target →
      bundle.unresolvedLinks.count ⟨id, target, relation⟩ =
        record.references.count (target, relation)

/-- No ID that the selector matches in two versions, and no reference to a missing record that an
earlier version of a connected ID carries too. -/
structure Unrepeated (records : List Record) (selector : String) : Prop where
  roots : ((matchedRecords records selector).map Record.id).Nodup
  references : ∀ id record, Connected records (matchedRecords records selector) id →
    latestVersion records id = some record →
    ∀ reference ∈ record.references, ¬ HasRecord records reference.1 →
      ∀ earlier ∈ (versions records id).dropLast, reference ∉ earlier.references

/-- Scrubbing keeps the ID. -/
theorem id_scrubRecord (record : Record) : (scrubRecord env record).id = record.id := by
  cases record <;> rfl

/-- Scrubbing leaves no field to be scrubbed. -/
theorem firstUnscrubbedField_scrubRecord (record : Record) :
    firstUnscrubbedField (scrubRecord env record) = none := by
  have handles : ∀ handle : Option PayloadHandle,
      (handle.map PayloadHandle.scrub).any (fun handle => handle.inline.isSome) = false := by
    rintro (_ | _) <;> rfl
  cases record with
  | node record => simp [scrubRecord, firstUnscrubbedField, handles]
  | edge record => rfl
  | tombstone record => rfl

/-- The IDs that a bundle includes, in the order of the traversal. -/
theorem exists_included (exported : Exported env records selector bundle) :
    ∃ found : List String, found.Nodup ∧
      (∀ id ∈ found, id ∉ (matchedRecords records selector).map Record.id) ∧
      bundle.records.Perm ((((matchedRecords records selector).map Record.id ++ found).filterMap
        (latestVersion records)).map (bundleRecord env)) ∧
      bundle.unresolvedLinks.Perm (((matchedRecords records selector).map Record.id ++ found).flatMap
        (listedLinks records)) ∧
      ∀ id, id ∈ (matchedRecords records selector).map Record.id ++ found ↔
        Connected records (matchedRecords records selector) id := by
  obtain ⟨found, nodup, apart, traversed, members⟩ :=
    traverse_spec (matchedRecords_subset : ∀ root ∈ matchedRecords records selector, root ∈ records)
  refine ⟨found, nodup, apart, ?_, ?_, members⟩
  · rw [exported.entries, traversed]
    exact List.perm_insertionSort _ _
  · rw [exported.unresolvedLinks, traversed]
    exact List.perm_insertionSort _ _

/-- What is connected to the roots has a record. -/
theorem Connected.hasRecord {id : String}
    (connected : Connected records (matchedRecords records selector) id) :
    HasRecord records id := by
  obtain ⟨root, matched, path⟩ := connected
  cases path with
  | refl => exact ⟨root, matchedRecords_subset root matched, rfl⟩
  | tail _ link => exact link.2.2

/-- The records of a bundle are those connected to the roots, in their latest versions. -/
theorem mem_exported (exported : Exported env records selector bundle) (entry : BundleRecord) :
    entry ∈ bundle.records ↔
      ∃ id record, Connected records (matchedRecords records selector) id ∧
        latestVersion records id = some record ∧ entry = bundleRecord env record := by
  obtain ⟨found, _, _, included, _, members⟩ := exists_included exported
  rw [included.mem_iff, List.mem_map]
  constructor
  · rintro ⟨record, member, rfl⟩
    obtain ⟨id, isIncluded, latest⟩ := List.mem_filterMap.mp member
    exact ⟨id, record, (members id).mp isIncluded, latest, rfl⟩
  · rintro ⟨id, record, connected, latest, rfl⟩
    exact ⟨record, List.mem_filterMap.mpr ⟨id, (members id).mpr connected, latest⟩, rfl⟩

/-- The IDs of a bundle's records are the ones included. -/
theorem ids_filterMap_latestVersion {ids : List String} (present : ∀ id ∈ ids, HasRecord records id) :
    ((ids.filterMap (latestVersion records)).map (bundleRecord env)).map
      (fun entry => entry.record.id) = ids := by
  induction ids with
  | nil => rfl
  | cons id ids ih =>
      obtain ⟨record, latest⟩ := hasRecord_iff.mp (present id List.mem_cons_self)
      rw [List.filterMap_cons_some latest, List.map_cons, List.map_cons,
        ih fun other member => present other (List.mem_cons_of_mem _ member)]
      rw [bundleRecord, id_scrubRecord, (latestVersion_id latest).2]

/-- Each ID is included once exactly when no ID is matched twice. -/
theorem nodup_exported_iff (exported : Exported env records selector bundle) :
    (bundle.records.map fun entry => entry.record.id).Nodup ↔
      ((matchedRecords records selector).map Record.id).Nodup := by
  obtain ⟨found, nodup, apart, included, _, members⟩ := exists_included exported
  rw [(included.map _).nodup_iff, ids_filterMap_latestVersion fun id member =>
    ((members id).mp member).hasRecord, List.nodup_append]
  constructor
  · exact fun both => both.1
  · intro roots
    refine ⟨roots, nodup, ?_⟩
    rintro id isRoot _ isFound rfl
    exact apart id isFound isRoot

/-- Neighbours in a sorted list are in order. -/
private theorem of_mem_zip_tail {r : BundleRecord → BundleRecord → Prop} {entries : List BundleRecord}
    (sorted : entries.Pairwise r) : ∀ pair ∈ entries.zip entries.tail, r pair.1 pair.2 := by
  induction sorted with
  | nil => simp
  | @cons first rest before _ ih =>
      cases rest with
      | nil => simp
      | cons second rest =>
          intro pair member
          rw [List.tail_cons, List.zip_cons_cons, List.mem_cons] at member
          rcases member with rfl | member
          · exact before second List.mem_cons_self
          · exact ih pair member

/-- The records of a bundle are sorted. -/
private theorem sorted_exported (exported : Exported env records selector bundle) :
    bundle.records.Pairwise fun entry other =>
      (recordOrder env entry.record other.record).isLE = true := by
  have total : Std.Total fun entry other : BundleRecord =>
      (recordOrder env entry.record other.record).isLE = true := by
    refine ⟨fun entry other => ?_⟩
    have swapped : recordOrder env other.record entry.record =
        (recordOrder env entry.record other.record).swap := Std.OrientedCmp.eq_swap
    rw [swapped]
    cases recordOrder env entry.record other.record <;> simp
  have trans : IsTrans BundleRecord fun entry other =>
      (recordOrder env entry.record other.record).isLE = true :=
    ⟨fun _ _ _ => Std.TransCmp.isLE_trans⟩
  rw [exported.entries]
  exact List.pairwise_insertionSort _ _

/-- A bundle as exported passes the check of its hashes. -/
theorem integrityFailure_exported (exported : Exported env records selector bundle) :
    integrityFailure env bundle = none := by
  have hashes : hashMismatch env bundle.records = none := by
    rw [hashMismatch, List.findSome?_eq_none_iff]
    rintro ⟨entry, index⟩ listed
    obtain ⟨id, record, _, _, rfl⟩ := (mem_exported exported entry).mp
      (List.fst_mem_of_mem_zipIdx listed)
    simp [bundleRecord]
  have order : orderFailure env bundle.records = none := by
    rw [orderFailure, List.findSome?_eq_none_iff]
    rintro ⟨⟨entry, next⟩, index⟩ listed
    have before := of_mem_zip_tail (sorted_exported exported) _ (List.fst_mem_of_mem_zipIdx listed)
    simp only [before]
    rfl
  rw [integrityFailure, exported.counts, includedRecordCounts]
  simp only [sum_foldl_tally]
  simp [hashes, order]

/-- It passes the check of its coverage. -/
theorem coverageFailure_exported (exported : Exported env records selector bundle) :
    coverageFailure env bundle = none := by
  have roots : (bundle.manifest.rootRecordIds.find? fun rootId =>
      !bundle.records.any fun entry => entry.record.id = rootId) = none := by
    rw [List.find?_eq_none, exported.rootIds]
    intro id member
    obtain ⟨root, matched, rfl⟩ := List.mem_map.mp member
    obtain ⟨record, latest⟩ := hasRecord_iff.mp ⟨root, matchedRecords_subset root matched, rfl⟩
    have included := (mem_exported exported (bundleRecord env record)).mpr
      ⟨root.id, record, ⟨root, matched, .refl⟩, latest, rfl⟩
    have named : (bundleRecord env record).record.id = root.id :=
      (id_scrubRecord record).trans (latestVersion_id latest).2
    simpa using ⟨_, included, named⟩
  rw [coverageFailure]
  simp [roots, exported.covered, exported.cited]

/-- It passes the check for secrets, if the detector finds none in its records. -/
theorem safetyFailure_exported (exported : Exported env records selector bundle)
    (clean : ∀ record ∈ records, env.detectSecret (env.toJson (scrubRecord env record)) = none) :
    safetyFailure env bundle = none := by
  rw [safetyFailure, List.findSome?_eq_none_iff]
  intro entry member
  obtain ⟨id, record, _, latest, rfl⟩ := (mem_exported exported entry).mp member
  simp [bundleRecord, clean record (latestVersion_id latest).1, firstUnscrubbedField_scrubRecord]

/-- An exported bundle passes its own verification. -/
theorem verifyBundle_exported (exported : Exported env records selector bundle)
    (clean : ∀ record ∈ records, env.detectSecret (env.toJson (scrubRecord env record)) = none) :
    (verifyBundle env bundle).ok = true := by
  simp [verifyBundle, verdict, integrityFailure_exported exported,
    coverageFailure_exported exported, safetyFailure_exported exported clean]

end Export

section Links

variable {records : List Record}

/-- A kept link is counted as often as its reference. -/
private theorem count_filterMap_link (keep : String × String → Bool) (id target relation : String)
    (kept : keep (target, relation) = true) (neighbours : List (String × String)) :
    (neighbours.filterMap fun neighbour =>
        if keep neighbour then some (⟨id, neighbour.1, neighbour.2⟩ : UnresolvedLink)
        else none).count ⟨id, target, relation⟩ = neighbours.count (target, relation) := by
  induction neighbours with
  | nil => rfl
  | cons neighbour neighbours ih =>
      by_cases same : neighbour = (target, relation)
      · subst same
        simp [kept, ih]
      · have apart : (⟨id, neighbour.1, neighbour.2⟩ : UnresolvedLink) ≠ ⟨id, target, relation⟩ := by
          intro equal
          injection equal with _ first second
          exact same (Prod.ext first second)
        rw [List.count_cons_of_ne same, ← ih]
        by_cases keeps : keep neighbour
        · rw [List.filterMap_cons_some (by rw [if_pos keeps]), List.count_cons_of_ne apart]
        · rw [List.filterMap_cons_none (by rw [if_neg keeps])]

/-- A reference to a missing record is listed for each version that carries it. -/
theorem count_listedLinks {id target relation : String} {record : Record}
    (latest : latestVersion records id = some record)
    (own : (target, relation) ∈ record.references) (missing : ¬ HasRecord records target) :
    (listedLinks records id).count ⟨id, target, relation⟩ =
      ((versions records id).flatMap Record.references).count (target, relation) := by
  have outgoing : record.isOutgoing target = true :=
    isOutgoing_iff.mpr (List.mem_map.mpr ⟨_, own, rfl⟩)
  have absent : (recordsById records).contains target = false := by
    rwa [← Bool.not_eq_true, contains_recordsById]
  rw [listedLinks, latest]
  simp only
  rw [count_filterMap_link (fun neighbour =>
      !(recordsById records).contains neighbour.1 && record.isOutgoing neighbour.1) id target
    relation (by simp [absent, outgoing]), count_adjacencyLists missing]

/-- A link is listed under the record that it starts at. -/
private theorem sourceId_listedLinks {id : String} {link : UnresolvedLink}
    (listed : link ∈ listedLinks records id) : link.sourceId = id := by
  rw [listedLinks] at listed
  split at listed
  · simp at listed
  · obtain ⟨neighbour, _, found⟩ := List.mem_filterMap.mp listed
    split at found
    · rw [← Option.some.inj found]
    · simp at found

/-- So each record lists its own links only. -/
theorem count_flatMap_listedLinks {ids : List String} (nodup : ids.Nodup) {id : String}
    (member : id ∈ ids) (target relation : String) :
    (ids.flatMap (listedLinks records)).count ⟨id, target, relation⟩ =
      (listedLinks records id).count ⟨id, target, relation⟩ := by
  have foreign : ∀ other : String, other ≠ id →
      (listedLinks records other).count ⟨id, target, relation⟩ = 0 := by
    intro other apart
    rw [List.count_eq_zero]
    exact fun listed => apart (sourceId_listedLinks listed).symm
  induction ids with
  | nil => simp at member
  | cons head ids ih =>
      obtain ⟨new, nodup⟩ := List.nodup_cons.mp nodup
      rw [List.flatMap_cons, List.count_append]
      rcases List.mem_cons.mp member with rfl | member
      · have rest : (ids.flatMap (listedLinks records)).count ⟨id, target, relation⟩ = 0 := by
          rw [List.count_eq_zero, List.mem_flatMap]
          rintro ⟨other, isLater, listed⟩
          obtain rfl := sourceId_listedLinks listed
          exact new isLater
        rw [rest, Nat.add_zero]
      · rw [ih nodup member, foreign head fun same => new (same ▸ member), Nat.zero_add]

/-- The latest version is the only one with a reference exactly when the versions carry it as
often as the latest one does. -/
theorem count_versions_iff {id : String} {record : Record}
    (latest : latestVersion records id = some record) (reference : String × String) :
    ((versions records id).flatMap Record.references).count reference =
        record.references.count reference ↔
      ∀ earlier ∈ (versions records id).dropLast, reference ∉ earlier.references := by
  obtain ⟨earlier, split_⟩ := List.getLast?_eq_some_iff.mp latest
  rw [split_, List.flatMap_append, List.count_append, List.dropLast_concat]
  simp only [List.flatMap_cons, List.flatMap_nil, List.append_nil]
  rw [Nat.add_eq_right, List.count_eq_zero, List.mem_flatMap]
  simp

end Links

section Law

variable {env : BundleEnv} {records : List Record} {selector version : String}
  {bundle : EvidenceBundle}

/-- An export keeps its promise exactly when no record repeats what the latest version of its
ID says: neither a match of the selector nor a reference to a missing record. -/
theorem exportLaw_iff (exported : exportBundle env records selector version = .ok bundle)
    (clean : ∀ record ∈ records, env.detectSecret (env.toJson (scrubRecord env record)) = none) :
    ExportLaw env records selector bundle ↔ Unrepeated records selector := by
  have facts := exported_of_exportBundle exported
  obtain ⟨found, nodup, apart, _, links, members⟩ := exists_included facts
  have counted : ((matchedRecords records selector).map Record.id).Nodup →
      ∀ id record, Connected records (matchedRecords records selector) id →
      latestVersion records id = some record →
      ∀ target relation, (target, relation) ∈ record.references → ¬ HasRecord records target →
        bundle.unresolvedLinks.count ⟨id, target, relation⟩ =
          ((versions records id).flatMap Record.references).count (target, relation) := by
    intro roots id record connected latest target relation own missing
    have distinct : ((matchedRecords records selector).map Record.id ++ found).Nodup := by
      rw [List.nodup_append]
      refine ⟨roots, nodup, ?_⟩
      rintro id isRoot _ isFound rfl
      exact apart id isFound isRoot
    rw [links.count_eq, count_flatMap_listedLinks distinct ((members id).mpr connected),
      count_listedLinks latest own missing]
  constructor
  · intro law
    have roots := (nodup_exported_iff facts).mp law.once
    refine ⟨roots, ?_⟩
    rintro id record connected latest ⟨target, relation⟩ own missing
    rw [← count_versions_iff latest, ←
      counted roots id record connected latest target relation own missing]
    exact law.listed id record connected latest target relation own missing
  · intro unrepeated
    refine ⟨verifyBundle_exported facts clean, (nodup_exported_iff facts).mpr unrepeated.roots,
      mem_exported facts, firstUnscrubbedField_scrubRecord, ?_⟩
    intro id record connected latest target relation own missing
    rw [counted unrepeated.roots id record connected latest target relation own missing,
      count_versions_iff latest]
    exact unrepeated.references id record connected latest _ own missing

/-- Records without secrets, all of them cited. -/
def plainEnv : BundleEnv where
  redactValue := id
  detectSecret := fun _ => none
  blake3 := hexText
  toJson := fun record => (JsonValue.object [("id", .string record.id)]).text
  citationTrustClass := fun _ => "source_fact"
  classify := fun _ _ => ("source_fact", true)
  belowThreshold := fun cited total => 100 * cited < 95 * total
  percent := fun _ _ => "100.00"

/-- A symbol under one of its names. -/
def namedSymbol (name task : String) : Record :=
  .node {
    id := "symbol"
    kind := .symbol
    name := some name
    parentTaskId := some task }

/-- A call of the symbol. -/
def symbolCall : Record :=
  .edge {
    id := "call"
    schemaVersion := 11
    label := .calls
    source := "caller"
    target := "symbol" }

/-- A symbol that was renamed, and a call of it from a record that is not there. -/
def renamedSymbol : List Record :=
  [namedSymbol "parse" "task1", symbolCall, namedSymbol "parseAll" "task2"]

/-- The export of a renamed symbol, and its law. -/
theorem renamedSymbol_exported :
    ∃ bundle, exportBundle plainEnv renamedSymbol "symbol:parseAll" "0.1.0" = .ok bundle ∧
      ExportLaw plainEnv renamedSymbol "symbol:parseAll" bundle := by
  have succeeds : (exportBundle plainEnv renamedSymbol "symbol:parseAll" "0.1.0").isOk = true := by
    decide
  cases exported : exportBundle plainEnv renamedSymbol "symbol:parseAll" "0.1.0" with
  | error failure =>
      rw [exported] at succeeds
      contradiction
  | ok bundle =>
      refine ⟨bundle, rfl, (exportLaw_iff exported fun _ _ => rfl).mpr ⟨by decide, ?_⟩⟩
      intro id record _ latest reference own _ earlier before
      by_cases symbol : id = "symbol"
      · subst symbol
        have last : latestVersion renamedSymbol "symbol" = some (namedSymbol "parseAll" "task2") := by
          decide
        have first : (versions renamedSymbol "symbol").dropLast = [namedSymbol "parse" "task1"] := by
          decide
        have apart : ∀ reference ∈ (namedSymbol "parseAll" "task2").references,
            reference ∉ (namedSymbol "parse" "task1").references := by
          decide
        obtain rfl := Option.some.inj (latest.symm.trans last)
        rw [first, List.mem_singleton] at before
        rw [before]
        exact apart reference own
      · have none_ : (versions renamedSymbol id).dropLast = [] := by
          by_cases call : id = "call"
          · subst call
            decide
          · have foreign : versions renamedSymbol id = [] := by
              simp [versions, renamedSymbol, namedSymbol, symbolCall, Record.id, Ne.symm symbol,
                Ne.symm call]
            rw [foreign]
            rfl
        simp [none_] at before

/-- An ID with two versions: the export succeeds, and the bundle carries the record twice. -/
theorem revisedRoot_twice :
    ¬ ∀ (env : BundleEnv) (records : List Record) (selector version : String)
      (bundle : EvidenceBundle), exportBundle env records selector version = .ok bundle →
      (∀ record ∈ records, env.detectSecret (env.toJson (scrubRecord env record)) = none) →
      ExportLaw env records selector bundle := by
  intro always
  have ids : (exportBundle plainEnv [namedSymbol "parse" "task1", namedSymbol "parseAll" "task1"]
      "id:symbol" "0.1.0").toOption.map (fun bundle => bundle.records.map fun entry =>
        entry.record.id) = some ["symbol", "symbol"] := by
    decide
  cases exported : exportBundle plainEnv [namedSymbol "parse" "task1",
      namedSymbol "parseAll" "task1"] "id:symbol" "0.1.0" with
  | error failure =>
      rw [exported] at ids
      contradiction
  | ok bundle =>
      rw [exported] at ids
      have twice : (bundle.records.map fun entry => entry.record.id) = ["symbol", "symbol"] :=
        Option.some.inj ids
      have once := (always _ _ _ _ _ exported fun _ _ => rfl).once
      rw [twice] at once
      simp at once

end Law

end Egregore.Bundle
