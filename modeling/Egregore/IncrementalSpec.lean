import Egregore.Base.Traverse
import Egregore.Incremental

/-!
# What a refresh tombstones

The records of a refresh come from parts: the files, the repo-wide passes, the
manifests. Each part tombstones what it emitted before and no longer does, looking
at its own records only. So the tombstones are the disappeared records unless a
record moves from one part to another. `tombstonesExact_iff` says so of every
refresh that returns. What a part emits is a function of the cache, the tree and the
passes, and not of the run.
-/

namespace Egregore

open Base

/-! ## Identity of records -/

namespace GraphRecord

/-- The ID is the first half of the identity. -/
theorem id_eq_identity (record : GraphRecord) : record.id = record.identity.1 := by
  cases record <;> rfl

/-- A node or an edge has nothing but its ID. -/
theorem writes_iff_identity {id : String} {record : GraphRecord} :
    record.writes id = true ↔ record.identity = (id, none) := by
  cases record <;> simp [writes, identity]

/-- A tombstone has the ID it deletes besides. -/
theorem deletes_iff_identity {id : String} {record : GraphRecord} :
    record.deletes id = true ↔ record.identity.2 = some id := by
  cases record <;> simp [deletes, identity]

@[simp] theorem identity_node (record : NodeRecord) :
    (node record).identity = (record.id, none) := rfl

@[simp] theorem identity_withValidTimeInferred (transactionTime : String) (record : GraphRecord) :
    (record.withValidTimeInferred transactionTime).identity = record.identity := by
  cases record <;> rfl

@[simp] theorem identity_withProducer (producer : Producer) (record : GraphRecord) :
    (record.withProducer producer).identity = record.identity := by
  cases record <;> rfl

end GraphRecord

/-- Redacting a field keeps the ID. -/
theorem redactField_id (redactCodeText : String → String → String × List (String × Nat))
    (placeholder name : String) (step : NodeRecord × List (String × Nat)) :
    (redactField redactCodeText placeholder name step).1.id = step.1.id := by
  rw [redactField]
  split <;> rfl

/-- So redaction keeps the identity of every record. -/
@[simp] theorem identity_redactRecord
    (redactCodeText : String → String → String × List (String × Nat)) (record : GraphRecord) :
    (redactRecord redactCodeText record).1.identity = record.identity := by
  cases record with
  | node record =>
      rw [redactRecord]
      split
      · simp only [GraphRecord.identity, redactNodeTextFields, redactField_id]
      · rfl
  | edge record => rfl
  | tombstone record => rfl

/-- An ID that a list of records emits. -/
def emits (records : List GraphRecord) (id : String) : Prop :=
  id ∈ records.map GraphRecord.id

/-- An ID that a list of records emits as a node or an edge. -/
def emitsLive (records : List GraphRecord) (id : String) : Prop :=
  ∃ record ∈ records, record.writes id = true

/-- An ID that a list of records tombstones. -/
def tombstones (records : List GraphRecord) (id : String) : Prop :=
  ∃ record ∈ records, record.deletes id = true

section Identities

variable {records others : List GraphRecord} {id : String}

/-- What is emitted can be read from the identities. -/
theorem emits_iff : emits records id ↔ id ∈ (records.map GraphRecord.identity).map Prod.fst := by
  simp only [emits, List.map_map, Function.comp_def, ← GraphRecord.id_eq_identity]

/-- So can what is emitted live. -/
theorem emitsLive_iff : emitsLive records id ↔ (id, none) ∈ records.map GraphRecord.identity := by
  simp only [emitsLive, GraphRecord.writes_iff_identity, List.mem_map]

/-- So can what is tombstoned. -/
theorem tombstones_iff :
    tombstones records id ↔ ∃ entry ∈ records.map GraphRecord.identity, entry.2 = some id := by
  simp only [tombstones, GraphRecord.deletes_iff_identity, List.mem_map, exists_exists_and_eq_and]

/-- Records of one list of identities emit and tombstone the same. -/
theorem emits_congr (same : records.map GraphRecord.identity = others.map GraphRecord.identity) :
    emits records id ↔ emits others id := by
  rw [emits_iff, emits_iff, same]

/-- Records of one list of identities emit the same live records. -/
theorem emitsLive_congr
    (same : records.map GraphRecord.identity = others.map GraphRecord.identity) :
    emitsLive records id ↔ emitsLive others id := by
  rw [emitsLive_iff, emitsLive_iff, same]

/-- Records of one list of identities tombstone the same. -/
theorem tombstones_congr
    (same : records.map GraphRecord.identity = others.map GraphRecord.identity) :
    tombstones records id ↔ tombstones others id := by
  rw [tombstones_iff, tombstones_iff, same]

@[simp] theorem not_emits_nil : ¬ emits [] id := by simp [emits]

@[simp] theorem not_emitsLive_nil : ¬ emitsLive [] id := by simp [emitsLive]

@[simp] theorem not_tombstones_nil : ¬ tombstones [] id := by simp [tombstones]

/-- Two lists emit what one of them emits. -/
@[simp] theorem emits_append : emits (records ++ others) id ↔ emits records id ∨ emits others id := by
  simp [emits]

@[simp] theorem emitsLive_append :
    emitsLive (records ++ others) id ↔ emitsLive records id ∨ emitsLive others id := by
  simp only [emitsLive, List.mem_append, or_and_right, exists_or]

@[simp] theorem tombstones_append :
    tombstones (records ++ others) id ↔ tombstones records id ∨ tombstones others id := by
  simp only [tombstones, List.mem_append, or_and_right, exists_or]

/-- What the lists of some items emit is what the list of one of them emits. -/
theorem emits_flatMap {α : Type} (items : List α) (recordsOf : α → List GraphRecord) :
    emits (items.flatMap recordsOf) id ↔ ∃ item ∈ items, emits (recordsOf item) id := by
  simp only [emits, List.map_flatMap, List.mem_flatMap]

theorem emitsLive_flatMap {α : Type} (items : List α) (recordsOf : α → List GraphRecord) :
    emitsLive (items.flatMap recordsOf) id ↔ ∃ item ∈ items, emitsLive (recordsOf item) id := by
  simp only [emitsLive_iff, List.map_flatMap, List.mem_flatMap]

theorem tombstones_flatMap {α : Type} (items : List α) (recordsOf : α → List GraphRecord) :
    tombstones (items.flatMap recordsOf) id ↔ ∃ item ∈ items, tombstones (recordsOf item) id := by
  simp only [tombstones, List.mem_flatMap]
  grind

end Identities

/-! ## The tombstones of one diff -/

section Diff

variable {stableId : List String → String} {path transactionTime id : String}

/-- The inferred valid time leaves what is emitted. -/
theorem emits_map_withValidTimeInferred {records : List GraphRecord} :
    emits (records.map (GraphRecord.withValidTimeInferred transactionTime)) id ↔
      emits records id := by
  apply emits_congr
  simp

/-- The tombstones of some IDs delete these. -/
theorem tombstones_map_invalidated (ids : List String) :
    tombstones (ids.map (invalidatedRecordTombstone stableId path transactionTime)) id ↔
      id ∈ ids := by
  simp [tombstones, invalidatedRecordTombstone, GraphRecord.deletes]

/-- They are live records of nothing. -/
theorem not_emitsLive_map_invalidated (ids : List String) :
    ¬ emitsLive (ids.map (invalidatedRecordTombstone stableId path transactionTime)) id := by
  simp [emitsLive, invalidatedRecordTombstone, GraphRecord.writes]

/-- A diff looks at the old IDs that are not among the rebuilt ones. -/
theorem invalidatedRecordTombstones_eq (oldRecords rebuiltRecords : List GraphRecord) :
    invalidatedRecordTombstones stableId path oldRecords rebuiltRecords transactionTime =
      ((oldRecords.map GraphRecord.id).filter
        fun id => id ∉ rebuiltRecords.map GraphRecord.id).map
          (invalidatedRecordTombstone stableId path transactionTime) := by
  rw [invalidatedRecordTombstones, List.filter_map, List.map_map]
  rfl

/-- A diff tombstones what the old records emit and the rebuilt ones do not. -/
theorem tombstones_invalidatedRecordTombstones (oldRecords rebuiltRecords : List GraphRecord) :
    tombstones (invalidatedRecordTombstones stableId path oldRecords rebuiltRecords
      transactionTime) id ↔ emits oldRecords id ∧ ¬ emits rebuiltRecords id := by
  rw [invalidatedRecordTombstones_eq, tombstones_map_invalidated, List.mem_filter]
  simp [emits]

/-- A diff emits no live record. -/
theorem not_emitsLive_invalidatedRecordTombstones (oldRecords rebuiltRecords : List GraphRecord) :
    ¬ emitsLive (invalidatedRecordTombstones stableId path oldRecords rebuiltRecords
      transactionTime) id := by
  rw [invalidatedRecordTombstones_eq]
  exact not_emitsLive_map_invalidated _

end Diff

/-! ## One turn of the per-file loop -/

section Refresh

variable {Facts Attribution Tally : Type} (passes : Passes Facts Attribution Tally)
variable (previousCache : CacheFile Facts) (tree : Tree Facts Attribution Tally)
variable (transactionTime : String) (rawLiterals : Bool)

/-! ## What a refresh emits, by its inputs -/

/-- The cached entry of an unchanged file, when the records of the cache may be replayed. -/
def replayed (path : String) : Option (CachedFile Facts) :=
  previousCache.files[path]?.filter fun entry =>
    canReuseCacheRecords passes previousCache tree rawLiterals &&
      entry.hash = (tree.fileHash path).getD unreadableSourceCacheHash

/-- The records of a file: those of the cache while it is unchanged, else what the extractor
reads from it. -/
def fileRecords (path : String) : List GraphRecord :=
  match replayed passes previousCache tree rawLiterals path with
  | some cached => cached.records
  | none =>
      match tree.scanSourceFileRecords path with
      | .ok (.extracted records _) => records
      | .ok (.skipped diagnostic) => [diagnostic]
      | .error _ => []

/-- The turns of the per-file loop. -/
def scannedFiles : List (FileScan Facts) :=
  tree.sourceFiles.filterMap fun path =>
    (scanFile passes previousCache tree transactionTime rawLiterals path).toOption

/-- The files that a refresh saves in its cache. -/
def cachedFiles (files : List (FileScan Facts)) : StrMap (CachedFile Facts) :=
  files.foldl (fun cached file => cached.insert file.path file.entry) ∅

/-- The facts of the files that have any. -/
def factsByFile : StrMap Facts :=
  ((cachedFiles (scannedFiles passes previousCache tree transactionTime rawLiterals)).filter
    fun _ entry => !passes.isEmpty entry.facts).map fun _ entry => entry.facts

/-- What the per-file loop leaves in the graph. -/
def loopGraph : List GraphRecord :=
  [repositoryRecord tree transactionTime] ++ repositoryTombstones passes previousCache tree ++
    (scannedFiles passes previousCache tree transactionTime rawLiterals).flatMap fun file =>
      file.tombstones ++ file.entry.records

/-- The records of the repo-wide passes over the facts of all files. -/
def crossFileRecords : List GraphRecord :=
  match tree.scanManifestPackageFacts with
  | .ok attribution =>
      let facts := factsByFile passes previousCache tree transactionTime rawLiterals
      passes.crossFileCallRecords tree.repositoryId facts ++
        passes.crossFileImplementsRecords tree.repositoryId facts ++
        passes.crossFileMacroRecords tree.repositoryId facts ++
        passes.crossFileImportTargetEdges tree.repositoryId
          (loopGraph passes previousCache tree transactionTime rawLiterals) facts attribution
  | .error _ => []

/-- The tombstones of what the repo-wide passes no longer find. -/
def crossFileTombstones : List GraphRecord :=
  let crossFileIds := (crossFileRecords passes previousCache tree transactionTime
    rawLiterals).map GraphRecord.id
  (previousCache.crossFileRecordIds.filter (· ∉ crossFileIds)).map
    (invalidatedRecordTombstone passes.stableId "cross-file" transactionTime)

/-- The graph after the passes over the facts of all files. -/
def linkedGraph : List GraphRecord :=
  let facts := factsByFile passes previousCache tree transactionTime rawLiterals
  (passes.applyOutOfLineCfgGates facts).run <|
    (passes.applyOutOfLineTestRoles facts).run <|
    (passes.applyOutOfLineTestScope facts).run <|
    (passes.labelSameFileCallResolutions facts).run <|
    loopGraph passes previousCache tree transactionTime rawLiterals ++
      crossFileTombstones passes previousCache tree transactionTime rawLiterals ++
      (crossFileRecords passes previousCache tree transactionTime rawLiterals).map
        (GraphRecord.withValidTimeInferred transactionTime)

/-- The records of the manifests. -/
def manifestRecords : List GraphRecord :=
  tree.scanDependencyRecords.toOption.getD []

/-- The graph that the coverage of the scan is reconciled with. -/
def attributedGraph : List GraphRecord :=
  let graph := linkedGraph passes previousCache tree transactionTime rawLiterals ++
    (removedFiles passes previousCache tree transactionTime).flatMap Prod.snd ++
    (manifestRecords tree).map (GraphRecord.withValidTimeInferred transactionTime)
  match tree.scanManifestPackageFacts with
  | .ok attribution => (passes.applyCrateAttribution attribution).run graph
  | .error _ => graph

/-- The records on the coverage of the scan. -/
def coverageRecords : List GraphRecord :=
  let tally := (scannedFiles passes previousCache tree transactionTime rawLiterals).foldl
    (fun tally file =>
      if hasFileNode file.path file.entry.records then tally
      else passes.recordUnindexedSkip tally file.path) tree.coverageTally
  passes.scanCoverageRecords tree.repositoryId
    (passes.reconcileScanCoverage
      (attributedGraph passes previousCache tree transactionTime rawLiterals) tally)
    transactionTime

/-- The evidence on what was masked in the graph, or the tombstone of that evidence. -/
def evidenceRecord : GraphRecord :=
  redactionEvidence passes tree transactionTime rawLiterals
    (scannedFiles passes previousCache tree transactionTime rawLiterals)
    (attributedGraph passes previousCache tree transactionTime rawLiterals ++
      (coverageRecords passes previousCache tree transactionTime rawLiterals).map
        (GraphRecord.withValidTimeInferred transactionTime))

/-- The parts of a refresh that emit records. -/
inductive Part where
  | repository | file (path : String) | crossFile | manifest | coverage | evidence
  deriving DecidableEq

/-- The records a part emits in a refresh. -/
def Part.emission : Part → List GraphRecord
  | .repository => [.node tree.repository]
  | .file path =>
      if path ∈ tree.sourceFiles then fileRecords passes previousCache tree rawLiterals path
      else []
  | .crossFile => crossFileRecords passes previousCache tree transactionTime rawLiterals
  | .manifest => manifestRecords tree
  | .coverage => coverageRecords passes previousCache tree transactionTime rawLiterals
  | .evidence =>
      [evidenceRecord passes previousCache tree transactionTime rawLiterals].filter
        fun record => record.writes (redactionEvidenceId passes tree)

/-- What a part may have emitted in the previous refresh: the records of the cache, the Repository
node of another identity, and the redaction evidence, of which the cache keeps nothing. -/
def Part.emittedBefore (id : String) : Part → Prop
  | .repository => staleRepositoryId passes previousCache tree = some id
  | .file path => ∃ entry, previousCache.files[path]? = some entry ∧ emits entry.records id
  | .crossFile => id ∈ previousCache.crossFileRecordIds
  | .evidence => id = redactionEvidenceId passes tree
  | .manifest | .coverage => False

/-- What the parts push, in order, with the tombstones of their diffs. -/
def pushed : List GraphRecord :=
  [.node tree.repository] ++ repositoryTombstones passes previousCache tree ++
    (scannedFiles passes previousCache tree transactionTime rawLiterals).flatMap
      (fun file => file.tombstones ++ file.entry.records) ++
    crossFileTombstones passes previousCache tree transactionTime rawLiterals ++
    crossFileRecords passes previousCache tree transactionTime rawLiterals ++
    (removedFiles passes previousCache tree transactionTime).flatMap Prod.snd ++
    manifestRecords tree ++
    coverageRecords passes previousCache tree transactionTime rawLiterals ++
    [evidenceRecord passes previousCache tree transactionTime rawLiterals]

/-! ## One turn of the per-file loop -/

variable {passes previousCache tree transactionTime rawLiterals}

/-- Redaction is the last step of a turn, and it keeps the identities. -/
theorem finishFile_identities (path hash : String) (reused : Bool)
    (tombstoned records : List GraphRecord) (facts : Facts) :
    (finishFile passes rawLiterals path hash reused tombstoned records facts).entry.records.map
      GraphRecord.identity = records.map GraphRecord.identity := by
  simp only [finishFile]
  cases rawLiterals <;> simp [Function.comp_def]

variable (passes previousCache tree rawLiterals) in
/-- What a turn of the loop does: the file emits its records, replayed or rebuilt; a rebuilt one
tombstones what it emitted before and no longer does. -/
structure FileScanned (path : String) (file : FileScan Facts) : Prop where
  path_eq : file.path = path
  records : file.entry.records.map GraphRecord.identity =
    (fileRecords passes previousCache tree rawLiterals path).map GraphRecord.identity
  notLive : ∀ id, ¬ emitsLive file.tombstones id
  diff : ∀ id, tombstones file.tombstones id ↔
    (∃ entry, previousCache.files[path]? = some entry ∧ emits entry.records id) ∧
      ¬ emits file.entry.records id

/-- The cases are the two kinds of turns: replayed, and extracted anew. -/
theorem scanFile_scanned {path : String} {file : FileScan Facts}
    (scanned : scanFile passes previousCache tree transactionTime rawLiterals path = .ok file) :
    FileScanned passes previousCache tree rawLiterals path file := by
  rw [scanFile] at scanned
  split at scanned
  next cached reused =>
    obtain ⟨found, -⟩ := Option.filter_eq_some_iff.mp reused
    have replays : replayed passes previousCache tree rawLiterals path = some cached := reused
    cases scanned
    refine ⟨rfl, ?_, fun id => not_emitsLive_nil, fun id => ?_⟩
    · rw [finishFile_identities, fileRecords, replays]
      simp
    · have kept : emits (finishFile passes rawLiterals path
          ((tree.fileHash path).getD unreadableSourceCacheHash) true []
          (cached.records.map (GraphRecord.withValidTimeInferred transactionTime))
          cached.facts).entry.records id ↔ emits cached.records id := by
        rw [emits_congr (finishFile_identities ..), emits_map_withValidTimeInferred]
      simp only [kept, found, Option.some.injEq, exists_eq_left', and_not_self]
      exact iff_false_intro not_tombstones_nil
  next rebuilt =>
    have replays : replayed passes previousCache tree rawLiterals path = none := rebuilt
    cases extracted : tree.scanSourceFileRecords path with
    | error message => simp [extracted, bind, Except.bind] at scanned
    | ok outcome =>
        simp only [extracted, bind, Except.bind, pure, Except.pure, Except.ok.injEq] at scanned
        subst scanned
        refine ⟨rfl, ?_, fun id => ?_, fun id => ?_⟩
        · rw [finishFile_identities, fileRecords, replays, extracted]
          cases outcome <;> simp
        · simp only [finishFile]
          split
          · exact not_emitsLive_invalidatedRecordTombstones _ _
          · exact not_emitsLive_nil
        · rw [emits_congr (finishFile_identities ..)]
          simp only [finishFile]
          cases found : previousCache.files[path]? with
          | none => simp
          | some entry => simp [tombstones_invalidatedRecordTombstones]

/-! ## A whole refresh -/

/-- The time stamps of the Repository node do not change which node it is. -/
@[simp] theorem identity_repositoryRecord :
    (repositoryRecord tree transactionTime).identity = (tree.repository.id, none) := by
  rfl

variable (passes previousCache tree transactionTime rawLiterals) in
/-- A finished refresh, by its inputs: each source file was scanned, the graph holds what was
pushed, and the cache is of it. -/
structure Finished (run : RefreshRun Facts) : Prop where
  turns : ∀ path ∈ tree.sourceFiles, ∃ file,
    scanFile passes previousCache tree transactionTime rawLiterals path = .ok file
  graph : run.scan.graph.map GraphRecord.identity =
    (pushed passes previousCache tree transactionTime rawLiterals).map GraphRecord.identity
  files : run.nextCache.files =
    cachedFiles (scannedFiles passes previousCache tree transactionTime rawLiterals)
  crossFile : ∀ id, id ∈ run.nextCache.crossFileRecordIds ↔
    emits (crossFileRecords passes previousCache tree transactionTime rawLiterals) id

variable (passes previousCache tree transactionTime rawLiterals) in
/-- The graph that a refresh returns, but for the producer of its records. -/
def refreshedGraph : List GraphRecord :=
  attributedGraph passes previousCache tree transactionTime rawLiterals ++
    (coverageRecords passes previousCache tree transactionTime rawLiterals).map
      (GraphRecord.withValidTimeInferred transactionTime) ++
    [evidenceRecord passes previousCache tree transactionTime rawLiterals]

/-- Passes and time stamps keep what tells the records apart. -/
theorem identities_refreshedGraph :
    (refreshedGraph passes previousCache tree transactionTime rawLiterals).map GraphRecord.identity =
      (pushed passes previousCache tree transactionTime rawLiterals).map
        GraphRecord.identity := by
  have attributed : (attributedGraph passes previousCache tree transactionTime rawLiterals).map
      GraphRecord.identity =
        (linkedGraph passes previousCache tree transactionTime rawLiterals ++
          (removedFiles passes previousCache tree transactionTime).flatMap Prod.snd ++
          (manifestRecords tree).map (GraphRecord.withValidTimeInferred transactionTime)).map
            GraphRecord.identity := by
    rw [attributedGraph]
    cases tree.scanManifestPackageFacts with
    | error message => rfl
    | ok attribution => exact RecordsPass.keeps _ _
  simp only [refreshedGraph, attributed, linkedGraph, loopGraph, pushed, RecordsPass.keeps,
    List.map_append, List.map_map, Function.comp_def, GraphRecord.identity_withValidTimeInferred,
    List.map_cons, List.map_nil, identity_repositoryRecord, GraphRecord.identity_node]

/-- A refresh that returns went through every `?` of the source. -/
theorem refreshRun_finished {run : RefreshRun Facts}
    (finished : refreshRun passes previousCache tree transactionTime rawLiterals = .ok run) :
    Finished passes previousCache tree transactionTime rawLiterals run := by
  rw [refreshRun] at finished
  cases scanned : tree.sourceFiles.mapM
      (scanFile passes previousCache tree transactionTime rawLiterals) with
  | error message => simp [scanned, bind, Except.bind] at finished
  | ok files =>
      obtain rfl : files = scannedFiles passes previousCache tree transactionTime rawLiterals :=
        eq_filterMap_of_mapM_ok scanned
      cases facts : tree.scanManifestPackageFacts with
      | error message => simp [scanned, facts, bind, Except.bind] at finished
      | ok attribution =>
          cases manifest : tree.scanDependencyRecords with
          | error message => simp [scanned, facts, manifest, bind, Except.bind] at finished
          | ok records =>
              have found : manifestRecords tree = records := by
                rw [manifestRecords, manifest]
                rfl
              simp only [scanned, facts, manifest, bind, Except.bind, pure, Except.pure,
                Except.ok.injEq] at finished
              subst finished
              refine ⟨fun path member => ?_, ?_, rfl, fun id => ?_⟩
              · obtain ⟨file, -, turn⟩ := exists_of_mapM_ok scanned member
                exact ⟨file, turn⟩
              · rw [← identities_refreshedGraph, List.map_map]
                simp only [Function.comp_def, GraphRecord.identity_withProducer, refreshedGraph,
                  evidenceRecord, coverageRecords, attributedGraph, linkedGraph,
                  crossFileTombstones, crossFileRecords, facts, found]
                rfl
              · rw [Std.ExtTreeSet.mem_toList, Std.ExtTreeSet.mem_ofList, emits,
                  List.contains_iff_mem, crossFileRecords, facts]
                rfl

/-- A turn of the loop is that of a source file. -/
theorem mem_scannedFiles {file : FileScan Facts} :
    file ∈ scannedFiles passes previousCache tree transactionTime rawLiterals ↔
      ∃ path ∈ tree.sourceFiles,
        scanFile passes previousCache tree transactionTime rawLiterals path = .ok file := by
  simp only [scannedFiles, List.mem_filterMap]
  apply exists_congr
  intro path
  cases scanFile passes previousCache tree transactionTime rawLiterals path <;> simp [Except.toOption]

variable (passes previousCache tree transactionTime rawLiterals) in
/-- The per-file loop, seen from its files: each path of the tree was scanned, to one outcome. -/
structure FilesScanned : Prop where
  scanned : ∀ file ∈ scannedFiles passes previousCache tree transactionTime rawLiterals,
    FileScanned passes previousCache tree rawLiterals file.path file
  present : ∀ path, path ∈ tree.sourceFiles ↔
    ∃ file ∈ scannedFiles passes previousCache tree transactionTime rawLiterals, file.path = path
  same : ∀ file ∈ scannedFiles passes previousCache tree transactionTime rawLiterals,
    ∀ other ∈ scannedFiles passes previousCache tree transactionTime rawLiterals,
      file.path = other.path → file = other

/-- Every turn that went through was a turn of its own path. -/
theorem filesScanned_of_turns
    (turns : ∀ path ∈ tree.sourceFiles, ∃ file,
      scanFile passes previousCache tree transactionTime rawLiterals path = .ok file) :
    FilesScanned passes previousCache tree transactionTime rawLiterals := by
  have ownTurn : ∀ file ∈ scannedFiles passes previousCache tree transactionTime rawLiterals,
      file.path ∈ tree.sourceFiles ∧
        scanFile passes previousCache tree transactionTime rawLiterals file.path = .ok file := by
    intro file member
    obtain ⟨path, inside, found⟩ := mem_scannedFiles.mp member
    obtain rfl := (scanFile_scanned found).path_eq
    exact ⟨inside, found⟩
  refine ⟨fun file member => scanFile_scanned (ownTurn file member).2, fun path => ⟨?_, ?_⟩, ?_⟩
  · intro member
    obtain ⟨file, found⟩ := turns path member
    exact ⟨file, mem_scannedFiles.mpr ⟨path, member, found⟩, (scanFile_scanned found).path_eq⟩
  · rintro ⟨file, member, rfl⟩
    exact (ownTurn file member).1
  · intro file member other member' samePath
    have found := (ownTurn file member).2
    rw [samePath, (ownTurn other member').2] at found
    exact (Except.ok.inj found).symm

/-! ## The tombstones of each part -/

/-- The former identity differs from the present one. -/
theorem staleRepositoryId_ne {id : String}
    (stale : staleRepositoryId passes previousCache tree = some id) :
    id ≠ tree.repositoryId := by
  rw [staleRepositoryId] at stale
  grind

/-- A changed identity tombstones the former Repository node. -/
theorem tombstones_repositoryTombstones {id : String} :
    tombstones (repositoryTombstones passes previousCache tree) id ↔
      staleRepositoryId passes previousCache tree = some id := by
  rw [repositoryTombstones]
  cases staleRepositoryId passes previousCache tree <;> simp [tombstones, GraphRecord.deletes]

/-- That emits no live record. -/
theorem not_emitsLive_repositoryTombstones {id : String} :
    ¬ emitsLive (repositoryTombstones passes previousCache tree) id := by
  rw [repositoryTombstones]
  cases staleRepositoryId passes previousCache tree <;> simp [emitsLive, GraphRecord.writes]

/-- A file that is gone tombstones all its cached records. -/
theorem tombstones_removedFiles {id : String} :
    tombstones ((removedFiles passes previousCache tree transactionTime).flatMap Prod.snd) id ↔
      ∃ path ∉ tree.sourceFiles, ∃ entry, previousCache.files[path]? = some entry ∧
        emits entry.records id := by
  rw [removedFiles, List.flatMap_map, tombstones_flatMap]
  simp only [tombstones_invalidatedRecordTombstones, not_emits_nil, not_false_eq_true, and_true,
    List.mem_filter, decide_eq_true_eq, Prod.exists,
    Std.ExtTreeMap.mem_toList_iff_getElem?_eq_some]
  constructor
  · rintro ⟨path, entry, ⟨found, removed⟩, before⟩
    exact ⟨path, removed, entry, found, before⟩
  · rintro ⟨path, removed, entry, found, before⟩
    exact ⟨path, entry, ⟨found, removed⟩, before⟩

/-- That emits no live record either. -/
theorem not_emitsLive_removedFiles {id : String} :
    ¬ emitsLive ((removedFiles passes previousCache tree transactionTime).flatMap Prod.snd) id := by
  rw [removedFiles, List.flatMap_map, emitsLive_flatMap]
  rintro ⟨entry, -, live⟩
  exact not_emitsLive_invalidatedRecordTombstones _ _ live

variable (passes previousCache tree transactionTime rawLiterals) in
/-- The evidence is its node, or the tombstone of that node. -/
theorem evidenceRecord_cases :
    (∃ record, evidenceRecord passes previousCache tree transactionTime rawLiterals = .node record ∧
        record.id = redactionEvidenceId passes tree) ∨
      ∃ record, evidenceRecord passes previousCache tree transactionTime rawLiterals =
          .tombstone record ∧ record.deletedId = redactionEvidenceId passes tree := by
  rw [evidenceRecord, redactionEvidence]
  split
  · exact Or.inl ⟨_, rfl, rfl⟩
  · exact Or.inr ⟨_, rfl, rfl⟩

section Parts

variable {id : String}

/-- The part of a file emits what its turn of the loop left in the cache, as far as only the
identities of the records count. -/
theorem emission_file {path : String} {holds : List GraphRecord → Prop} (empty : ¬ holds [])
    (congr : ∀ {records others : List GraphRecord},
      records.map GraphRecord.identity = others.map GraphRecord.identity →
        (holds records ↔ holds others))
    (loop : FilesScanned passes previousCache tree transactionTime rawLiterals) :
    holds ((Part.file path).emission passes previousCache tree transactionTime rawLiterals) ↔
      ∃ file ∈ scannedFiles passes previousCache tree transactionTime rawLiterals,
        file.path = path ∧ holds file.entry.records := by
  rw [Part.emission]
  by_cases seen : path ∈ tree.sourceFiles
  · rw [if_pos seen]
    obtain ⟨file, member, rfl⟩ := (loop.present path).mp seen
    rw [← congr (loop.scanned file member).records]
    constructor
    · exact fun held => ⟨file, member, rfl, held⟩
    · rintro ⟨other, member', samePath, held⟩
      rwa [loop.same other member' file member samePath] at held
  · rw [if_neg seen]
    refine iff_of_false empty ?_
    rintro ⟨file, member, samePath, -⟩
    exact seen ((loop.present path).mpr ⟨file, member, samePath⟩)

/-- A file's part emits what its turn of the loop left in the cache. -/
theorem emits_file {path : String}
    (loop : FilesScanned passes previousCache tree transactionTime rawLiterals) :
    emits ((Part.file path).emission passes previousCache tree transactionTime rawLiterals) id ↔
      ∃ file ∈ scannedFiles passes previousCache tree transactionTime rawLiterals,
        file.path = path ∧ emits file.entry.records id :=
  emission_file not_emits_nil emits_congr loop

/-- A file's part tombstones what the diff of the rebuilt file or its removal finds gone. -/
theorem tombstones_files
    (loop : FilesScanned passes previousCache tree transactionTime rawLiterals) :
    (∃ path, (Part.file path).emittedBefore passes previousCache tree id ∧
        ¬ emits ((Part.file path).emission passes previousCache tree transactionTime rawLiterals)
          id) ↔
      (∃ file ∈ scannedFiles passes previousCache tree transactionTime rawLiterals,
        tombstones file.tombstones id) ∨
        tombstones ((removedFiles passes previousCache tree transactionTime).flatMap Prod.snd)
          id := by
  rw [tombstones_removedFiles]
  simp only [emits_file loop, Part.emittedBefore]
  constructor
  · rintro ⟨path, before, gone⟩
    by_cases seen : path ∈ tree.sourceFiles
    · obtain ⟨file, member, rfl⟩ := (loop.present path).mp seen
      left
      refine ⟨file, member, ((loop.scanned file member).diff id).mpr ⟨before, fun kept => ?_⟩⟩
      exact gone ⟨file, member, rfl, kept⟩
    · exact Or.inr ⟨path, seen, before⟩
  · rintro (⟨file, member, deleted⟩ | ⟨path, removed, before⟩)
    · obtain ⟨before, gone⟩ := ((loop.scanned file member).diff id).mp deleted
      refine ⟨file.path, before, ?_⟩
      rintro ⟨other, member', samePath, kept⟩
      rw [loop.same other member' file member samePath] at kept
      exact gone kept
    · refine ⟨path, before, ?_⟩
      rintro ⟨file, member, samePath, -⟩
      exact removed ((loop.present path).mpr ⟨file, member, samePath⟩)

/-- A property of some part is one of these. -/
theorem exists_part {holds : Part → Prop} :
    (∃ part, holds part) ↔ holds .repository ∨ (∃ path, holds (.file path)) ∨ holds .crossFile ∨
      holds .manifest ∨ holds .coverage ∨ holds .evidence := by
  constructor
  · rintro ⟨part, found⟩
    cases part with
    | file path => exact Or.inr (Or.inl ⟨path, found⟩)
    | _ => simp [found]
  · rintro (found | ⟨path, found⟩ | found | found | found | found) <;> exact ⟨_, found⟩

/-- The evidence deletes its own node when it does not emit it. -/
theorem tombstones_evidence :
    tombstones [evidenceRecord passes previousCache tree transactionTime rawLiterals] id ↔
      id = redactionEvidenceId passes tree ∧
        ¬ emits (Part.evidence.emission passes previousCache tree transactionTime rawLiterals)
          id := by
  rw [Part.emission]
  rcases evidenceRecord_cases passes previousCache tree transactionTime rawLiterals with
    ⟨record, shape, same⟩ | ⟨record, shape, same⟩
  · simp only [shape, tombstones, emits, GraphRecord.deletes, GraphRecord.writes]
    simp [same]
  · simp [shape, tombstones, emits, GraphRecord.deletes, GraphRecord.writes, same]
    exact eq_comm

/-- The evidence is emitted live exactly when its part emits it. -/
theorem emitsLive_evidence :
    emitsLive [evidenceRecord passes previousCache tree transactionTime rawLiterals] id ↔
      emitsLive (Part.evidence.emission passes previousCache tree transactionTime rawLiterals)
        id := by
  rw [Part.emission]
  rcases evidenceRecord_cases passes previousCache tree transactionTime rawLiterals with
    ⟨record, shape, same⟩ | ⟨record, shape, same⟩
  · simp [shape, emitsLive, GraphRecord.writes, same]
  · simp [shape, emitsLive, GraphRecord.writes]

/-- The part of the evidence deletes nothing: its tombstone belongs to the diff. -/
theorem not_tombstones_evidence :
    ¬ tombstones (Part.evidence.emission passes previousCache tree transactionTime rawLiterals)
      id := by
  rintro ⟨record, member, deleted⟩
  rw [Part.emission, List.mem_filter] at member
  rw [GraphRecord.not_deletes_of_writes member.2] at deleted
  cases deleted

/-- The repo-wide passes tombstone what the cache lists and they no longer find. -/
theorem tombstones_crossFileTombstones :
    tombstones (crossFileTombstones passes previousCache tree transactionTime rawLiterals) id ↔
      id ∈ previousCache.crossFileRecordIds ∧
        ¬ emits (crossFileRecords passes previousCache tree transactionTime rawLiterals) id := by
  rw [crossFileTombstones, tombstones_map_invalidated, List.mem_filter]
  simp [emits]

/-- The tombstones of a refresh: what a part emitted before and no longer does, and what the
extractors themselves have deleted. -/
theorem tombstones_pushed
    (loop : FilesScanned passes previousCache tree transactionTime rawLiterals) :
    tombstones (pushed passes previousCache tree transactionTime rawLiterals) id ↔
      (∃ part : Part, part.emittedBefore passes previousCache tree id ∧
        ¬ emits (part.emission passes previousCache tree transactionTime rawLiterals) id) ∨
      ∃ part : Part,
        tombstones (part.emission passes previousCache tree transactionTime rawLiterals) id := by
  have stale : staleRepositoryId passes previousCache tree = some id ↔
      staleRepositoryId passes previousCache tree = some id ∧
        ¬ emits [GraphRecord.node tree.repository] id := by
    refine ⟨fun found => ⟨found, ?_⟩, And.left⟩
    simpa [emits, Tree.repositoryId] using staleRepositoryId_ne found
  have ownFiles : (∃ path, tombstones
      ((Part.file path).emission passes previousCache tree transactionTime rawLiterals) id) ↔
        ∃ file ∈ scannedFiles passes previousCache tree transactionTime rawLiterals,
          tombstones file.entry.records id := by
    simp only [emission_file not_tombstones_nil tombstones_congr loop]
    grind
  have repository : ¬ tombstones [GraphRecord.node tree.repository] id := by
    simp [tombstones, GraphRecord.deletes]
  rw [exists_part, exists_part, tombstones_files loop, ownFiles]
  simp only [pushed, tombstones_append, tombstones_repositoryTombstones,
    tombstones_flatMap (scannedFiles passes previousCache tree transactionTime rawLiterals),
    tombstones_crossFileTombstones, tombstones_evidence, not_tombstones_evidence,
    repository, Part.emittedBefore, false_or, or_false, false_and]
  simp only [Part.emission, repository, false_or, ← stale]
  grind

/-- The live records of a refresh are those of its parts. -/
theorem emitsLive_pushed
    (loop : FilesScanned passes previousCache tree transactionTime rawLiterals) :
    emitsLive (pushed passes previousCache tree transactionTime rawLiterals) id ↔
      ∃ part : Part,
        emitsLive (part.emission passes previousCache tree transactionTime rawLiterals) id := by
  have files : (∃ path, emitsLive
      ((Part.file path).emission passes previousCache tree transactionTime rawLiterals) id) ↔
        ∃ file ∈ scannedFiles passes previousCache tree transactionTime rawLiterals,
          emitsLive (file.tombstones ++ file.entry.records) id := by
    simp only [emission_file not_emitsLive_nil emitsLive_congr loop, emitsLive_append]
    constructor
    · rintro ⟨path, file, member, -, live⟩
      exact ⟨file, member, Or.inr live⟩
    · rintro ⟨file, member, live⟩
      refine ⟨file.path, file, member, rfl, ?_⟩
      exact live.resolve_left ((loop.scanned file member).notLive id)
  have crossFile :
      ¬ emitsLive (crossFileTombstones passes previousCache tree transactionTime rawLiterals)
        id := not_emitsLive_map_invalidated _
  rw [exists_part, files, ← emitsLive_evidence]
  simp only [pushed, emitsLive_append, not_emitsLive_repositoryTombstones,
    emitsLive_flatMap (scannedFiles passes previousCache tree transactionTime rawLiterals),
    crossFile, not_emitsLive_removedFiles, Part.emission, or_false]
  grind

end Parts

/-! ## Tombstones are the disappeared records -/

/-- An ID that the cache says the refresh before emitted. -/
def CacheFile.emitted (cache : CacheFile Facts) (id : String) : Prop :=
  (∃ path : String, ∃ entry, cache.files[path]? = some entry ∧ emits entry.records id) ∨
    id ∈ cache.crossFileRecordIds

/-- The tombstones of a graph are exactly the records that disappeared since the cache was
written: none is of a live record, and none is missing. -/
structure TombstonesExact (previousCache : CacheFile Facts) (graph : List GraphRecord) : Prop where
  apart : ∀ id, tombstones graph id → ¬ emitsLive graph id
  complete : ∀ id, previousCache.emitted id → ¬ emits graph id → tombstones graph id

/-- A file's entry of the saved cache holds the records that its part emitted. -/
theorem getElem?_cachedFiles {path : String} {entry : CachedFile Facts}
    (loop : FilesScanned passes previousCache tree transactionTime rawLiterals) :
    (cachedFiles (scannedFiles passes previousCache tree transactionTime rawLiterals))[path]? =
        some entry ↔
      ∃ file ∈ scannedFiles passes previousCache tree transactionTime rawLiterals,
        file.path = path ∧ file.entry = entry := by
  have folded : cachedFiles (scannedFiles passes previousCache tree transactionTime rawLiterals) =
      (scannedFiles passes previousCache tree transactionTime rawLiterals).foldl
        (insertEntry fun file => some (file.path, file.entry)) ∅ := rfl
  rw [folded, getElem?_foldl_insertEntry]
  simp only [Std.ExtTreeMap.getElem?_empty, Option.or_none, List.filterMap_eq_map',
    Option.map_eq_some_iff]
  constructor
  · rintro ⟨pair, last, rfl⟩
    have member := List.mem_of_getLast? last
    simp only [List.mem_filter, List.mem_map, decide_eq_true_eq] at member
    obtain ⟨⟨file, inside, rfl⟩, samePath⟩ := member
    exact ⟨file, inside, samePath, rfl⟩
  · rintro ⟨file, inside, samePath, rfl⟩
    have inGroup : (file.path, file.entry) ∈
        ((scannedFiles passes previousCache tree transactionTime rawLiterals).map
          fun file => (file.path, file.entry)).filter fun pair => pair.1 = path := by
      simp only [List.mem_filter, List.mem_map, decide_eq_true_eq]
      exact ⟨⟨file, inside, rfl⟩, samePath⟩
    obtain ⟨pair, last⟩ := Option.ne_none_iff_exists'.mp
      (mt List.getLast?_eq_none_iff.mp (List.ne_nil_of_mem inGroup))
    refine ⟨pair, last, ?_⟩
    have member := List.mem_of_getLast? last
    simp only [List.mem_filter, List.mem_map, decide_eq_true_eq] at member
    obtain ⟨⟨other, inside', rfl⟩, samePath'⟩ := member
    rw [loop.same other inside' file inside (samePath'.trans samePath.symm)]

/-- The cache that a refresh saves records what its files and its repo-wide passes emitted. -/
theorem emitted_nextCache {run : RefreshRun Facts} {id : String}
    (finished : refreshRun passes previousCache tree transactionTime rawLiterals = .ok run) :
    run.nextCache.emitted id ↔
      (∃ path,
        emits ((Part.file path).emission passes previousCache tree transactionTime rawLiterals)
          id) ∨
        emits (Part.crossFile.emission passes previousCache tree transactionTime rawLiterals)
          id := by
  have shape := refreshRun_finished finished
  have loop := filesScanned_of_turns shape.turns
  rw [CacheFile.emitted, shape.files, shape.crossFile]
  apply or_congr _ Iff.rfl
  simp only [getElem?_cachedFiles loop, emits_file loop]
  constructor
  · rintro ⟨path, _, ⟨file, member, samePath, rfl⟩, inside⟩
    exact ⟨path, file, member, samePath, inside⟩
  · rintro ⟨path, file, member, samePath, inside⟩
    exact ⟨path, file.entry, ⟨file, member, samePath, rfl⟩, inside⟩

variable (passes previousCache tree transactionTime rawLiterals) in
/-- No record moves: what a part emitted before and no longer does is not emitted live by another
part, and nothing an extractor deletes is. -/
structure NoRecordMoves : Prop where
  moved : ∀ (part : Part) (id : String), part.emittedBefore passes previousCache tree id →
    ¬ emits (part.emission passes previousCache tree transactionTime rawLiterals) id →
      ∀ other : Part,
        ¬ emitsLive (other.emission passes previousCache tree transactionTime rawLiterals) id
  deleted : ∀ (part : Part) (id : String),
    tombstones (part.emission passes previousCache tree transactionTime rawLiterals) id →
      ∀ other : Part,
        ¬ emitsLive (other.emission passes previousCache tree transactionTime rawLiterals) id

/-- A part's records are pushed. -/
theorem emits_pushed_of_file {id path : String}
    (loop : FilesScanned passes previousCache tree transactionTime rawLiterals)
    (emitted : emits
      ((Part.file path).emission passes previousCache tree transactionTime rawLiterals) id) :
    emits (pushed passes previousCache tree transactionTime rawLiterals) id := by
  obtain ⟨file, member, -, inside⟩ := (emits_file loop).mp emitted
  have pushedFile : emits
      ((scannedFiles passes previousCache tree transactionTime rawLiterals).flatMap
        fun file => file.tombstones ++ file.entry.records) id :=
    (emits_flatMap _ _).mpr ⟨file, member, emits_append.mpr (Or.inr inside)⟩
  simp only [pushed, emits_append]
  simp [pushedFile]

/-- The tombstones of a finished refresh are exact if and only if no record moves between parts. -/
theorem tombstonesExact_iff {run : RefreshRun Facts}
    (finished : refreshRun passes previousCache tree transactionTime rawLiterals = .ok run) :
    TombstonesExact previousCache run.scan.graph ↔
      NoRecordMoves passes previousCache tree transactionTime rawLiterals := by
  have shape := refreshRun_finished finished
  have loop := filesScanned_of_turns shape.turns
  have deleted : ∀ id, tombstones run.scan.graph id ↔ _ := fun id =>
    (tombstones_congr shape.graph).trans (tombstones_pushed loop)
  have live : ∀ id, emitsLive run.scan.graph id ↔ _ := fun id =>
    (emitsLive_congr shape.graph).trans (emitsLive_pushed loop)
  constructor
  · intro exact
    refine ⟨fun part id before gone other there => ?_, fun part id gone other there => ?_⟩
    · exact exact.apart id ((deleted id).mpr (Or.inl ⟨part, before, gone⟩))
        ((live id).mpr ⟨other, there⟩)
    · exact exact.apart id ((deleted id).mpr (Or.inr ⟨part, gone⟩)) ((live id).mpr ⟨other, there⟩)
  · intro stays
    refine ⟨fun id gone there => ?_, fun id before absent => ?_⟩
    · obtain ⟨other, there⟩ := (live id).mp there
      rcases (deleted id).mp gone with ⟨part, before, gone⟩ | ⟨part, gone⟩
      · exact stays.moved part id before gone other there
      · exact stays.deleted part id gone other there
    · -- This half needs no condition: each diff tombstones what its own part lost.
      rw [emits_congr shape.graph] at absent
      refine (deleted id).mpr (Or.inl ?_)
      rcases before with ⟨path, entry, found, inside⟩ | inside
      · exact ⟨.file path, ⟨entry, found, inside⟩, fun kept => absent (emits_pushed_of_file loop kept)⟩
      · refine ⟨.crossFile, inside, fun kept => absent ?_⟩
        have crossFile :
            emits (crossFileRecords passes previousCache tree transactionTime rawLiterals) id := kept
        simp only [pushed, emits_append]
        simp [crossFile]

end Refresh

/-! ## A call that changes the pass that emits it -/

namespace DispatchEdit

def stableId (parts : List String) : String := "codegraph:v11:" ++ "/".intercalate parts

def repositoryId : String := stableId ["node", "repository", "demo"]

def fileId : String := stableId ["node", "file", "src/lib.rs"]

def mainId : String := stableId ["node", "symbol", "src/lib.rs", "main"]

def helperId : String := stableId ["node", "symbol", "src/lib.rs", "helper"]

def edge (label : EdgeLabel) (source target : String) : EdgeRecord where
  id := stableId ["edge", label.asStr, source, target]
  schemaVersion := schemaVersion
  label := label
  source := source
  target := target

def symbol (id name : String) : NodeRecord where
  id := id
  kind := .symbol
  schemaVersion := schemaVersion
  repoRelativePath := some "src/lib.rs"
  name := some name
  language := some "rust"

/-- The extractor on `fn helper() {}` and a `main` that calls it, before and after `main` also
calls `helper` on a trait object: then its call edges are left to the repo-wide pass. -/
def scanSource (dispatches : Bool) : SourceFileScanOutcome (List (String × String)) :=
  let declared : List GraphRecord := [
    .node { symbol fileId "src/lib.rs" with kind := .file },
    .node (symbol helperId "helper"),
    .node (symbol mainId "main"),
    .edge (edge .defines fileId helperId),
    .edge (edge .defines fileId mainId)]
  if dispatches then .extracted declared [(mainId, helperId)]
  else .extracted (declared ++ [.edge (edge .calls mainId helperId)]) []

def tree (dispatches : Bool) : Tree (List (String × String)) Unit Unit where
  repository := { id := repositoryId, kind := .repository, schemaVersion }
  basename := "demo"
  sourceSnapshot := id
  sourceFiles := ["src/lib.rs"]
  coverageTally := ()
  fileHash := fun _ => some (if dispatches then "hash-after" else "hash-before")
  scanSourceFileRecords := fun _ => .ok (scanSource dispatches)
  scanManifestPackageFacts := .ok ()
  scanDependencyRecords := .ok []

def unchanged : RecordsPass := ⟨id, fun _ => rfl⟩

def passes : Passes (List (String × String)) Unit Unit where
  producerIdentity := ⟨"0.1.0", []⟩
  stableId := stableId
  versionedStableId := fun version parts =>
    "codegraph:v" ++ toString version ++ ":" ++ "/".intercalate parts
  noFacts := []
  isEmpty := List.isEmpty
  crossFileCallRecords := fun _ facts => facts.toList.flatMap fun entry => entry.2.map fun call =>
    .edge { edge .calls call.1 call.2 with resolution := some .resolved }
  crossFileImplementsRecords := fun _ _ => []
  crossFileMacroRecords := fun _ _ => []
  crossFileImportTargetEdges := fun _ _ _ _ => []
  labelSameFileCallResolutions := fun _ => unchanged
  applyOutOfLineTestScope := fun _ => unchanged
  applyOutOfLineTestRoles := fun _ => unchanged
  applyOutOfLineCfgGates := fun _ => unchanged
  applyCrateAttribution := fun _ => unchanged
  recordUnindexedSkip := fun tally _ => tally
  reconcileScanCoverage := fun _ tally => tally
  scanCoverageRecords := fun repositoryId _ _ => [
    .node {
      id := stableId ["node", "scan_coverage", repositoryId]
      kind := .scanCoverage
      schemaVersion := schemaVersion },
    .edge (edge .contains repositoryId (stableId ["node", "scan_coverage", repositoryId]))]
  redactCodeText := fun text _ => (text, [])
  producer := fun _ => { producerStartedAt := "2026-01-01T00:00:00Z" }

end DispatchEdit

/-- The equivalence at the two refreshes around the edit. -/
theorem dispatchEdit_exact_iff : ∃ first second,
    refreshRun DispatchEdit.passes {} (DispatchEdit.tree false) "2026-01-01T00:00:00Z" false =
      .ok first ∧
    refreshRun DispatchEdit.passes first.nextCache (DispatchEdit.tree true) "2026-01-02T00:00:00Z"
      false = .ok second ∧
    (TombstonesExact first.nextCache second.scan.graph ↔
      NoRecordMoves DispatchEdit.passes first.nextCache (DispatchEdit.tree true)
        "2026-01-02T00:00:00Z" false) :=
  ⟨_, _, rfl, rfl, tombstonesExact_iff rfl⟩

/-- The call edge of `main` is tombstoned by the diff of its file, and live from the repo-wide
pass. -/
theorem dispatchEdit_not_exact : ∃ first second,
    refreshRun DispatchEdit.passes {} (DispatchEdit.tree false) "2026-01-01T00:00:00Z" false =
      .ok first ∧
    refreshRun DispatchEdit.passes first.nextCache (DispatchEdit.tree true) "2026-01-02T00:00:00Z"
      false = .ok second ∧
    ¬ TombstonesExact first.nextCache second.scan.graph := by
  refine ⟨_, _, rfl, rfl, fun exact => ?_⟩
  refine exact.apart (DispatchEdit.edge .calls DispatchEdit.mainId DispatchEdit.helperId).id ?_ ?_
  · rw [tombstones]
    decide
  · rw [emitsLive]
    decide +kernel

end Egregore
