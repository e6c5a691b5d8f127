import Egregore.Base.OrderedMap
import Egregore.Query.TxDelta
import Egregore.SchemaVersion

/-!
# Incremental refresh

`incremental.rs`: a repository is scanned again over the cache of the previous
scan. Unchanged files replay their cached records, the others are extracted anew,
the repo-wide passes run over all of them, and what the previous scan emitted and
this one no longer does is tombstoned. Extraction, hashing, the repo-wide passes
and the manifests are parameters.
-/

namespace Egregore

open Base

/-- What tells two records apart: the ID, and what a tombstone deletes. -/
def GraphRecord.identity : GraphRecord → String × Option String
  | .node record => (record.id, none)
  | .edge record => (record.id, none)
  | .tombstone record => (record.id, some record.deletedId)

/-- Set a serialized field that the record model does not name. -/
def NodeRecord.setField (record : NodeRecord) (name value : String) : NodeRecord :=
  { record with rest := (name, value) :: record.rest.filter fun entry => entry.1 ≠ name }

/-- `with_valid_time_inferred`. -/
def GraphRecord.withValidTimeInferred (transactionTime : String) : GraphRecord → GraphRecord
  | .node record =>
      .node ((record.setField "valid_time" transactionTime).setField "valid_time_source"
        "inferred_from_transaction_time")
  | record => record

/-- `with_producer`. -/
def GraphRecord.withProducer (producer : Producer) : GraphRecord → GraphRecord
  | .node record => .node { record with producer := some producer }
  | .edge record => .edge { record with producer := some producer }
  | .tombstone record => .tombstone { record with producer := some producer }

/-- `is_code_graph_kind`. -/
def isCodeGraphKind : NodeKind → Bool
  | .repository | .file | .moduleDecl | .symbol | .importDecl | .diagnostic | .panicRiskSite
  | .debtMarker | .unsafeSite | .lintSuppression | .scanCoverage | .historyReplayWindow
  | .historyReplayTip | .commit | .change | .semanticDrift | .embeddingModel
  | .embeddingVector => true
  | _ => false

def redactionMarker : String := "«redacted:secret»"

def redactionPolicyVersion : String := "v1"

def cacheSchemaVersion : Nat := 30

def unreadableSourceCacheHash : String := "unreadable-source:v438"

/-- `CurrentProducerIdentity`. -/
structure CurrentProducerIdentity where
  egregoreVersion : String
  producerComponents : List (String × String)
  deriving DecidableEq

/-- `CachedFile`. -/
structure CachedFile (Facts : Type) where
  hash : String
  records : List GraphRecord
  facts : Facts

/-- `CacheFile`. -/
structure CacheFile (Facts : Type) where
  schemaVersion : Nat := cacheSchemaVersion
  repositoryId : String := ""
  files : StrMap (CachedFile Facts) := ∅
  crossFileRecordIds : List String := []
  producerEgregoreVersion : String := ""
  producerComponents : List (String × String) := []
  rawLiterals : Option Bool := none

/-- `SourceFileScanOutcome`. -/
inductive SourceFileScanOutcome (Facts : Type) where
  | extracted (records : List GraphRecord) (facts : Facts)
  | skipped (diagnostic : GraphRecord)

/-- A pass over records already pushed: it may rewrite their fields, never their identity. -/
structure RecordsPass where
  run : List GraphRecord → List GraphRecord
  keeps : ∀ records, (run records).map GraphRecord.identity = records.map GraphRecord.identity

/-- The repository as a refresh finds it: its identity, its source files by path, and what the
extractors read from them and from its manifests. -/
structure Tree (Facts Attribution Tally : Type) where
  repository : NodeRecord
  basename : String
  /-- The working-tree snapshot, for the time of the scan. -/
  sourceSnapshot : String → String
  sourceFiles : List String
  coverageTally : Tally
  /-- The hash of a file's bytes, unless they cannot be read. -/
  fileHash : String → Option String
  scanSourceFileRecords : String → Except String (SourceFileScanOutcome Facts)
  scanManifestPackageFacts : Except String Attribution
  scanDependencyRecords : Except String (List GraphRecord)

/-- The ID of the repository record. -/
def Tree.repositoryId {Facts Attribution Tally : Type} (tree : Tree Facts Attribution Tally) :
    String :=
  tree.repository.id

/-- The repo-wide passes and the other code that a refresh calls. -/
structure Passes (Facts Attribution Tally : Type) where
  producerIdentity : CurrentProducerIdentity
  stableId : List String → String
  versionedStableId : Nat → List String → String
  noFacts : Facts
  isEmpty : Facts → Bool
  crossFileCallRecords : String → StrMap Facts → List GraphRecord
  crossFileImplementsRecords : String → StrMap Facts → List GraphRecord
  crossFileMacroRecords : String → StrMap Facts → List GraphRecord
  crossFileImportTargetEdges :
    String → List GraphRecord → StrMap Facts → Attribution → List GraphRecord
  labelSameFileCallResolutions : StrMap Facts → RecordsPass
  applyOutOfLineTestScope : StrMap Facts → RecordsPass
  applyOutOfLineTestRoles : StrMap Facts → RecordsPass
  applyOutOfLineCfgGates : StrMap Facts → RecordsPass
  applyCrateAttribution : Attribution → RecordsPass
  recordUnindexedSkip : Tally → String → Tally
  reconcileScanCoverage : List GraphRecord → Tally → Tally
  scanCoverageRecords : String → Tally → String → List GraphRecord
  redactCodeText : String → String → String × List (String × Nat)
  /-- The incremental producer envelope for the languages of the graph. -/
  producer : List GraphRecord → Producer

section Redaction

variable (redactCodeText : String → String → String × List (String × Nat))

/-- Redact one optional field of a node. -/
def redactField (placeholder : String) (name : String)
    (step : NodeRecord × List (String × Nat)) : NodeRecord × List (String × Nat) :=
  match step.1.field name with
  | some text =>
      let (clean, counts) := redactCodeText text placeholder
      (step.1.setField name clean, step.2 ++ counts)
  | none => step

/-- `redact_node_text_fields`; the counts are a list of additions. -/
def redactNodeTextFields (record : NodeRecord) (placeholder : String) :
    NodeRecord × List (String × Nat) :=
  let (clean, counts) := redactCodeText record.summary placeholder
  redactField redactCodeText placeholder "doc"
    (redactField redactCodeText placeholder "signature" ({ record with summary := clean }, counts))

/-- Redact a record of the code graph, with what was masked in it. -/
def redactRecord : GraphRecord → GraphRecord × List (String × Nat)
  | .node record =>
      if isCodeGraphKind record.kind then
        let (record, counts) := redactNodeTextFields redactCodeText record redactionMarker
        (.node record, counts)
      else (.node record, [])
  | record => (record, [])

end Redaction

/-- `invalidated_record_tombstone`. -/
def invalidatedRecordTombstone (stableId : List String → String) (repoRelativePath : String)
    (transactionTime deletedId : String) : GraphRecord :=
  .tombstone {
    id := stableId ["tombstone", "cache-schema", repoRelativePath, deletedId, transactionTime]
    schemaVersion
    deletedId
    summary := "Invalidated stale cached record " ++ deletedId ++ " from " ++ repoRelativePath }

/-- `invalidated_record_tombstones`. -/
def invalidatedRecordTombstones (stableId : List String → String) (repoRelativePath : String)
    (oldRecords rebuiltRecords : List GraphRecord) (transactionTime : String) :
    List GraphRecord :=
  (oldRecords.filter fun record => record.id ∉ rebuiltRecords.map GraphRecord.id).map
    fun record => invalidatedRecordTombstone stableId repoRelativePath transactionTime record.id

/-- One turn of the per-file loop. -/
structure FileScan (Facts : Type) where
  path : String
  reused : Bool
  tombstones : List GraphRecord
  entry : CachedFile Facts
  redactionCounts : List (String × Nat)
  redactedNodes : Nat

/-- `IncrementalScan`. -/
structure IncrementalScan where
  graph : List GraphRecord
  rebuiltFiles : List String
  reusedFiles : List String
  tombstonedFiles : List String

/-- A refresh that went through: the scan, and the cache saved for the next one. -/
structure RefreshRun (Facts : Type) where
  scan : IncrementalScan
  nextCache : CacheFile Facts

section Refresh

variable {Facts Attribution Tally : Type} (passes : Passes Facts Attribution Tally)
variable (previousCache : CacheFile Facts) (tree : Tree Facts Attribution Tally)
variable (transactionTime : String) (rawLiterals : Bool)

/-- `CacheFile::validate_record_versions`. -/
def CacheFile.validateRecordVersions (cache : CacheFile Facts) : Bool :=
  cache.files.toList.all fun entry => entry.2.records.all fun record =>
    match validateRecordVersion record with
    | .ok _ => true
    | .error _ => false

/-- Whether the records of the cache may be replayed. -/
def canReuseCacheRecords : Bool :=
  previousCache.schemaVersion = cacheSchemaVersion &&
    previousCache.repositoryId = tree.repositoryId &&
    previousCache.producerEgregoreVersion = passes.producerIdentity.egregoreVersion &&
    previousCache.producerComponents = passes.producerIdentity.producerComponents &&
    previousCache.rawLiterals = some rawLiterals && previousCache.validateRecordVersions

/-- The ID of the Repository node that the store may still hold under another identity. -/
def staleRepositoryId : Option String :=
  if previousCache.repositoryId ≠ "" then
    if previousCache.repositoryId ≠ tree.repositoryId then some previousCache.repositoryId
    else none
  else if previousCache.files.isEmpty then none
  else
    -- A cache written before it recorded the identity: the ID was derived from the basename.
    let legacyRepoId := passes.versionedStableId previousCache.schemaVersion
      ["node", "repository", tree.basename]
    if legacyRepoId ≠ tree.repositoryId then some legacyRepoId else none

/-- The tombstone of the Repository node's former identity. -/
def repositoryTombstones : List GraphRecord :=
  match staleRepositoryId passes previousCache tree with
  | some staleId => [.tombstone {
      id := passes.stableId ["tombstone", "repository-identity-changed", staleId]
      schemaVersion
      deletedId := staleId
      summary := "Repository identity changed; stale Repository " ++ staleId ++ " removed" }]
  | none => []

/-- The Repository node, stamped with the snapshot it was scanned at. -/
def repositoryRecord : GraphRecord :=
  match (GraphRecord.node tree.repository).withValidTimeInferred transactionTime with
  | .node record => .node (record.setField "source_snapshot" (tree.sourceSnapshot transactionTime))
  | record => record

/-- The record sets of a scanned file after redaction, with what was masked. -/
def finishFile (path hash : String) (reused : Bool) (tombstones records : List GraphRecord)
    (facts : Facts) : FileScan Facts :=
  let redacted := if rawLiterals then records.map fun record => (record, [])
    else records.map (redactRecord passes.redactCodeText)
  { path
    reused
    tombstones
    entry := { hash, records := redacted.map Prod.fst, facts }
    redactionCounts := redacted.flatMap Prod.snd
    redactedNodes := redacted.countP fun step => !step.2.isEmpty }

/-- The body of the per-file loop: replay the cached records of an unchanged file, or extract it
and tombstone those it no longer has. -/
def scanFile (path : String) : Except String (FileScan Facts) :=
  let hash := (tree.fileHash path).getD unreadableSourceCacheHash
  let previousEntry := previousCache.files[path]?
  let cached := previousEntry.filter fun entry =>
    canReuseCacheRecords passes previousCache tree rawLiterals && entry.hash = hash
  match cached with
  | some cached =>
      .ok (finishFile passes rawLiterals path hash true []
        (cached.records.map (GraphRecord.withValidTimeInferred transactionTime)) cached.facts)
  | none => do
      let (records, facts) := match ← tree.scanSourceFileRecords path with
        | .extracted records facts => (records, facts)
        | .skipped diagnostic => ([diagnostic], passes.noFacts)
      let records := records.map (GraphRecord.withValidTimeInferred transactionTime)
      let tombstones := match previousEntry with
        | some invalidated =>
            invalidatedRecordTombstones passes.stableId path invalidated.records records
              transactionTime
        | none => []
      return finishFile passes rawLiterals path hash false tombstones records facts

/-- Whether a file's records hold its `File` node. -/
def hasFileNode (path : String) (records : List GraphRecord) : Bool :=
  records.any fun record => match record with
    | .node record => record.kind = .file && record.repoRelativePath = some path
    | _ => false

/-- The files that the previous scan had and this one did not find, with their tombstones. -/
def removedFiles : List (String × List GraphRecord) :=
  (previousCache.files.toList.filter fun entry => entry.1 ∉ tree.sourceFiles).map fun entry =>
    (entry.1, invalidatedRecordTombstones passes.stableId entry.1 entry.2.records []
      transactionTime)

/-- Occurrences of the marker; it cannot overlap itself. -/
def countMarkers (text : String) : Nat :=
  text.toList.tails.countP fun rest => redactionMarker.toList.isPrefixOf rest

/-- The masked literals of a record. -/
def maskedLiterals : GraphRecord → Nat
  | .node record =>
      if isCodeGraphKind record.kind then
        countMarkers record.summary + ((record.field "signature").map countMarkers).getD 0 +
          ((record.field "doc").map countMarkers).getD 0
      else 0
  | _ => 0

/-- The counts added up by class. -/
def tallyCounts (counts : List (String × Nat)) : StrMap Nat :=
  counts.foldl (fun tally entry => tally.alter entry.1 fun count => some (count.getD 0 + entry.2)) ∅

/-- The ID of the node that reports what was masked. -/
def redactionEvidenceId : String :=
  passes.stableId ["node", "diagnostic", "redaction_evidence", tree.repositoryId]

/-- The redaction evidence, or the tombstone of what may be left of it. -/
def redactionEvidence (files : List (FileScan Facts)) (graph : List GraphRecord) : GraphRecord :=
  let masked := (graph.map maskedLiterals).filter (0 < ·)
  if !rawLiterals && 0 < masked.length then
    let counts := tallyCounts (files.flatMap FileScan.redactionCounts)
    let summary :=
      if counts.isEmpty then
        "Redaction evidence present: " ++ toString masked.sum ++ " masked literals across " ++
          toString masked.length ++ " nodes carried from a prior redaction."
      else
        let details := (counts.toList.map fun entry => entry.1 ++ ": " ++ toString entry.2).mergeSort
          fun detail other => byteOrder detail other ≠ .gt
        "Redacted " ++ toString (counts.toList.map Prod.snd).sum ++ " literals across " ++
          toString (files.map FileScan.redactedNodes).sum ++ " nodes. Detector classes: " ++
          ", ".intercalate details
    let diagnostic : NodeRecord := {
      id := redactionEvidenceId passes tree
      kind := .diagnostic
      schemaVersion
      name := some "redaction_evidence"
      summary }
    match (GraphRecord.node diagnostic).withValidTimeInferred transactionTime with
    | .node record => .node (record.setField "redaction_policy_version" redactionPolicyVersion)
    | record => record
  else
    .tombstone {
      id := passes.stableId ["tombstone", "redaction_evidence", tree.repositoryId, transactionTime]
      schemaVersion
      deletedId := redactionEvidenceId passes tree
      summary := "Stale redaction evidence removed" }

/-- `scan_repository_incremental_at_inner`. -/
def refreshRun : Except String (RefreshRun Facts) := do
  let files ← tree.sourceFiles.mapM
    (scanFile passes previousCache tree transactionTime rawLiterals)
  let graph := [repositoryRecord tree transactionTime] ++
    repositoryTombstones passes previousCache tree ++
    files.flatMap fun file => file.tombstones ++ file.entry.records
  let tally := files.foldl (fun tally file =>
    if hasFileNode file.path file.entry.records then tally
    else passes.recordUnindexedSkip tally file.path) tree.coverageTally
  let cachedFiles := files.foldl (fun (cached : StrMap (CachedFile Facts)) file =>
    cached.insert file.path file.entry) ∅
  let factsByFile := (cachedFiles.filter fun _ entry => !passes.isEmpty entry.facts).map
    fun _ entry => entry.facts
  let attribution ← tree.scanManifestPackageFacts
  let crossFile := passes.crossFileCallRecords tree.repositoryId factsByFile ++
    passes.crossFileImplementsRecords tree.repositoryId factsByFile ++
    passes.crossFileMacroRecords tree.repositoryId factsByFile ++
    passes.crossFileImportTargetEdges tree.repositoryId graph factsByFile attribution
  let crossFileIds := crossFile.map GraphRecord.id
  let staleIds := previousCache.crossFileRecordIds.filter (· ∉ crossFileIds)
  let graph := graph ++
    staleIds.map (invalidatedRecordTombstone passes.stableId "cross-file" transactionTime) ++
    crossFile.map (GraphRecord.withValidTimeInferred transactionTime)
  let graph := (passes.labelSameFileCallResolutions factsByFile).run graph
  let graph := (passes.applyOutOfLineTestScope factsByFile).run graph
  let graph := (passes.applyOutOfLineTestRoles factsByFile).run graph
  let graph := (passes.applyOutOfLineCfgGates factsByFile).run graph
  let removed := removedFiles passes previousCache tree transactionTime
  let manifest ← tree.scanDependencyRecords
  let graph := graph ++ removed.flatMap Prod.snd ++
    manifest.map (GraphRecord.withValidTimeInferred transactionTime)
  let graph := (passes.applyCrateAttribution attribution).run graph
  let tally := passes.reconcileScanCoverage graph tally
  let coverage := passes.scanCoverageRecords tree.repositoryId tally transactionTime
  let assembled := graph ++ coverage.map (GraphRecord.withValidTimeInferred transactionTime)
  let graph := assembled ++
    [redactionEvidence passes tree transactionTime rawLiterals files assembled]
  let producer := passes.producer graph
  return {
    scan := {
      graph := graph.map (GraphRecord.withProducer producer)
      rebuiltFiles := (files.filter fun file => !file.reused).map FileScan.path
      reusedFiles := (files.filter FileScan.reused).map FileScan.path
      tombstonedFiles := removed.map Prod.fst }
    nextCache := {
      schemaVersion := cacheSchemaVersion
      repositoryId := tree.repositoryId
      files := cachedFiles
      crossFileRecordIds := (Std.ExtTreeSet.ofList crossFileIds byteOrder).toList
      producerEgregoreVersion := passes.producerIdentity.egregoreVersion
      producerComponents := passes.producerIdentity.producerComponents
      rawLiterals := some rawLiterals } }

/-- `scan_repository_incremental_at`: the scan, and the cache saved for the next one. -/
def scanRepositoryIncremental : Except String (IncrementalScan × CacheFile Facts) :=
  (refreshRun passes previousCache tree transactionTime rawLiterals).map fun run =>
    (run.scan, run.nextCache)

end Refresh

end Egregore
