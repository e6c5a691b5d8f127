import Egregore.Base.Dedup
import Egregore.Query.Repo
import Egregore.Query.TransactionTime

/-!
# Deltas of a commit range

`query/deltas.rs`: the files and symbols that differ between two commits, each with the commit
of the range that introduced what the head shows. The drift section and the corpus disclosure
of the response read nothing of this and are left out.
-/

namespace Egregore

open Base

/-- `RangeDeltaClass`. -/
inductive RangeDeltaClass where
  | added | removed | modified
  deriving DecidableEq, Repr

/-- `RangeDeltaItem`. -/
structure RangeDeltaItem where
  recordId : String
  schemaVersion : Nat
  changeClass : String
  name : Option String
  symbolKind : Option String
  repoRelativePath : String
  span : Option String
  absentSpanReason : Option String
  commit : String
  validTime : Option String
  deriving DecidableEq, Repr

/-- `RangeDeltaDiagnostic`. -/
structure RangeDeltaDiagnostic where
  code : String
  recordId : String
  detail : String
  deriving DecidableEq, Repr

/-- `RepoScopeCandidate`. -/
structure RepoScopeCandidate where
  repositoryId : String
  repositoryName : Option String
  deriving DecidableEq, Repr

/-- `RangeDeltasError`. -/
inductive RangeDeltasError where
  | missingCommit (commitPrefix : String)
  | ambiguousCommitPrefix (commitPrefix : String) («matches» : List String)
  | identicalEndpoints (commit : String)
  | reversedRange (base head : String)
  | noPath (base head : String)
  | emptyHistory
  | repoScopeRequired (candidateRepositories : List RepoScopeCandidate)
  deriving DecidableEq, Repr

/-- `RangeScope`. -/
inductive RangeScope where
  | unscoped
  | owned (index : RepositoryIndex) (repositoryId : String)

/-- `RangeScope::in_scope`. -/
def RangeScope.inScope : RangeScope → String → Bool
  | .unscoped, _ => true
  | .owned index repositoryId, id => index.ownerOf id = some repositoryId

/-- `ResolvedCommitRange`. -/
structure ResolvedCommitRange where
  baseSha : String
  headSha : String
  /-- Commit to its parents, from the temporal metadata and the `PARENT_OF` edges. -/
  parentMap : StrMap (List String)
  commitValidTime : StrMap String
  /-- The commits reachable from the head but not from the base. -/
  rangeCommitShas : StrSet
  /-- The same commits, newest first. -/
  rangeDesc : List String

/-- `RangeDeltas`, without its drift section and its disclosures. -/
structure RangeDeltas where
  base : String
  head : String
  rangeCommitCount : Nat
  addedSymbols : List RangeDeltaItem
  removedSymbols : List RangeDeltaItem
  modifiedSymbols : List RangeDeltaItem
  addedFiles : List RangeDeltaItem
  removedFiles : List RangeDeltaItem
  modifiedFiles : List RangeDeltaItem
  unresolved : List RangeDeltaDiagnostic

/-! ## Ranges -/

section Range

variable (toLowercase : String → String) (records : List GraphRecord) (inScope : String → Bool)

/-- The name of a `Commit` node. -/
def commitName (node : NodeRecord) : Option String :=
  if node.kind = .commit then node.name else none

/-- `endpoint_repository_owners`. -/
def endpointRepositoryOwners (index : RepositoryIndex) (commitPrefix : String) : StrSet :=
  (nodesOf records).foldl (fun owners node =>
    match commitName node, index.ownerOf node.id with
    | some sha, some owner =>
        if (toLowercase commitPrefix).toList <+: (toLowercase sha).toList then owners.insert owner
        else owners
    | _, _ => owners) ∅

/-- `resolve_range_scope`. -/
def resolveRangeScope (basePrefix headPrefix : String) (repoScope : Option String) :
    Except RangeDeltasError RangeScope :=
  let index := RepositoryIndex.build records
  match repoScope with
  | some scope => .ok (.owned index scope)
  | none =>
      if index.repositoryIds.length ≤ 1 then .ok .unscoped
      else
        let baseOwners := endpointRepositoryOwners toLowercase records index basePrefix
        let headOwners := endpointRepositoryOwners toLowercase records index headPrefix
        if baseOwners.isEmpty || headOwners.isEmpty then .ok .unscoped
        else if baseOwners.size = 1 ∧ headOwners = baseOwners then
          .ok (.owned index (baseOwners.min?.getD ""))
        else
          .error (.repoScopeRequired ((baseOwners ∪ headOwners).toList.map fun id =>
            { repositoryId := id, repositoryName := index.displayOf id }))

/-- `resolve_commit_prefix`. -/
def resolveCommitPrefix (commitPrefix : String) : Except RangeDeltasError String :=
  let found : StrSet := (nodesOf records).foldl (fun found node =>
    match commitName node with
    | some sha =>
        if (toLowercase commitPrefix).toList <+: (toLowercase sha).toList ∧ inScope node.id then
          found.insert sha
        else found
    | none => found) ∅
  match found.toList with
  | [] => .error (.missingCommit commitPrefix)
  | [sha] => .ok sha
  | several => .error (.ambiguousCommitPrefix commitPrefix several)

/-- The last record of each ID. -/
def lastById : StrMap GraphRecord :=
  records.foldl (fun byId record => byId.insert record.id record) ∅

/-- A link from a child commit to a parent, by a `Commit` node's temporal metadata or by a
`PARENT_OF` edge between two `Commit` nodes. -/
def parentLinks (byId : StrMap GraphRecord) : GraphRecord → List (String × String)
  | .node node =>
      match commitName node, node.temporal with
      | some sha, some temporal =>
          if inScope node.id then temporal.gitParentCommits.map (sha, ·) else []
      | _, _ => []
  | .edge edge =>
      if edge.label = .parentOf ∧ inScope edge.source ∧ inScope edge.target then
        match byId[edge.source]?, byId[edge.target]? with
        | some (.node parent), some (.node child) =>
            match commitName parent, commitName child with
            | some parentSha, some childSha => [(childSha, parentSha)]
            | _, _ => []
        | _, _ => []
      else []
  | .tombstone _ => []

/-- The parents of `commit_topology`, sorted and without repetitions. A commit without parents
has no entry here; the source reads a missing entry as an empty one. -/
def commitTopologyParents : StrMap (List String) :=
  ((records.flatMap (parentLinks inScope (lastById records))).foldl insertLink ∅).map
    fun _ parents => parents.toList

/-- The valid times of `commit_topology`: the first node of a commit says it. -/
def commitTopologyTimes : StrMap String :=
  (nodesOf records).foldl (fun times node =>
    match commitName node, node.temporal with
    | some sha, some temporal =>
        if inScope node.id then times.insertIfNew sha temporal.validTime else times
    | _, _ => times) ∅

/-- `reachable_commits`. -/
def reachableCommits (parentMap : StrMap (List String)) (startSha : String) : List String :=
  let parents := fun sha => parentMap.getD sha []
  walkFresh parents (pendingPushes parents parentMap.keys [startSha] []) [startSha] []

/-- Newer commits first: by rank, then by SHA. -/
def newerFirst (order : CommitOrder) (sha other : String) : Prop :=
  (compare (order.rankAt other) (order.rankAt sha)).then (byteOrder other sha) ≠ .gt

instance (order : CommitOrder) : DecidableRel (newerFirst order) :=
  fun _ _ => inferInstanceAs (Decidable (_ ≠ _))

/-- `resolve_commit_range`. -/
def resolveCommitRange (basePrefix headPrefix : String) :
    Except RangeDeltasError ResolvedCommitRange :=
  if !(nodesOf records).any fun node => node.kind = .commit then .error .emptyHistory
  else
    match resolveCommitPrefix toLowercase records inScope basePrefix,
        resolveCommitPrefix toLowercase records inScope headPrefix with
    | .error fault, _ => .error fault
    | .ok _, .error fault => .error fault
    | .ok baseSha, .ok headSha =>
        if baseSha = headSha then .error (.identicalEndpoints baseSha)
        else
          let parentMap := commitTopologyParents records inScope
          let reachableHead := reachableCommits parentMap headSha
          let reachableBase := reachableCommits parentMap baseSha
          if baseSha ∉ reachableHead then
            if headSha ∈ reachableBase then .error (.reversedRange basePrefix headPrefix)
            else .error (.noPath basePrefix headPrefix)
          else
            let rangeCommitShas : StrSet :=
              (reachableHead.filter (· ∉ reachableBase)).foldl (·.insert ·) ∅
            .ok {
              baseSha := baseSha
              headSha := headSha
              parentMap := parentMap
              commitValidTime := commitTopologyTimes records inScope
              rangeCommitShas := rangeCommitShas
              rangeDesc := rangeCommitShas.toList.insertionSort
                (newerFirst (CommitOrder.build records)) }

end Range

/-! ## Introducing commits -/

section Introducing

/-- Whether the class transition shows at a commit, against its parents. -/
def ResolvedCommitRange.transition (range : ResolvedCommitRange) (perCommit : StrMap NodeRecord)
    (change : RangeDeltaClass) (modifiedKey : NodeRecord → String) (sha : String) : Bool :=
  let parents := range.parentMap.getD sha []
  match change with
  | .added => perCommit.contains sha && parents.all fun parent => !perCommit.contains parent
  | .removed => !perCommit.contains sha && parents.any fun parent => perCommit.contains parent
  | .modified =>
      match perCommit[sha]? with
      | some snapshot => parents.any fun parent =>
          (perCommit[parent]?).any fun earlier => modifiedKey earlier ≠ modifiedKey snapshot
      | none => false

/-- `ResolvedCommitRange::introducing`. -/
def ResolvedCommitRange.introducing (range : ResolvedCommitRange) (perCommit : StrMap NodeRecord)
    (change : RangeDeltaClass) (modifiedKey : NodeRecord → String) : Option String :=
  range.rangeDesc.find? (range.transition perCommit change modifiedKey)

/-- File a node under its ID and its commit. -/
def insertSnapshot (kind : NodeKind) (inScope : String → Bool)
    (snapshots : StrMap (StrMap NodeRecord)) (node : NodeRecord) : StrMap (StrMap NodeRecord) :=
  match node.temporal with
  | some temporal =>
      if node.kind = kind ∧ inScope node.id then
        snapshots.insert node.id ((snapshots.getD node.id ∅).insert temporal.gitCommit node)
      else snapshots
  | none => snapshots

/-- `temporal_snapshot_index`: per record ID the last snapshot at each commit. -/
def temporalSnapshotIndex (records : List GraphRecord) (kind : NodeKind)
    (inScope : String → Bool) : StrMap (StrMap NodeRecord) :=
  (nodesOf records).foldl (insertSnapshot kind inScope) ∅

end Introducing

/-! ## Rows -/

section Rows

variable (range : ResolvedCommitRange) (isSymbol : Bool)

/-- The text of a missing introduction. -/
def unresolvedIntroduction (classLabel recordId : String) : RangeDeltaDiagnostic where
  code := "unresolved_introducing_commit"
  recordId := recordId
  detail := classLabel ++ " delta confirmed between endpoints but no range commit " ++
    "shows the transition; falling back to the head commit"

/-- The text of a row that cannot be shown. -/
def missingRepoRelativePath (classLabel recordId : String) : RangeDeltaDiagnostic where
  code := "missing_repo_relative_path"
  recordId := recordId
  detail := classLabel ++ " row dropped: snapshot carries no repo path"

/-- `build_item`, with the diagnostic that it adds. -/
def buildItem (record : NodeRecord) (classLabel : String) (change : RangeDeltaClass)
    (perCommit : StrMap NodeRecord) : Option RangeDeltaItem × List RangeDeltaDiagnostic :=
  match record.repoRelativePath with
  | none => (none, [missingRepoRelativePath classLabel record.id])
  | some path =>
      let introduced := range.introducing perCommit change NodeRecord.summary
      let commit := introduced.getD range.headSha
      (some {
          recordId := record.id
          schemaVersion := record.schemaVersion
          changeClass := classLabel
          name := if isSymbol then record.name else none
          symbolKind := if isSymbol then record.field "symbol_kind" else none
          repoRelativePath := path
          span := record.field "span"
          absentSpanReason :=
            if isSymbol && (record.field "span").isNone then some "no_span_module_level" else none
          commit := commit
          validTime := range.commitValidTime[commit]? },
        if introduced.isNone then [unresolvedIntroduction classLabel record.id] else [])

/-- The class of a record between the endpoints, with the snapshot that its row shows. -/
def endpointDelta (perCommit : StrMap NodeRecord) : Option (RangeDeltaClass × NodeRecord) :=
  match perCommit[range.baseSha]?, perCommit[range.headSha]? with
  | none, some head => some (.added, head)
  | some base, none => some (.removed, base)
  | some base, some head => if base.summary ≠ head.summary then some (.modified, head) else none
  | none, none => none

/-- The label of a class. -/
def classLabel (isSymbol : Bool) : RangeDeltaClass → String
  | .added => if isSymbol then "added_symbol" else "added_file"
  | .removed => if isSymbol then "removed_symbol" else "removed_file"
  | .modified => if isSymbol then "modified_symbol" else "modified_file"

/-- The order of rows: by path, name and record ID. -/
def itemBefore (item other : RangeDeltaItem) : Prop :=
  ((byteOrder item.repoRelativePath other.repoRelativePath).then
    (byteOrder (item.name.getD "") (other.name.getD ""))).then
      (byteOrder item.recordId other.recordId) ≠ .gt

instance : DecidableRel itemBefore := fun _ _ => inferInstanceAs (Decidable (_ ≠ _))

/-- The rows of one class, and the diagnostics on the way, before they are sorted. -/
def classRows (snapshots : StrMap (StrMap NodeRecord)) (change : RangeDeltaClass) :
    List (Option RangeDeltaItem × List RangeDeltaDiagnostic) :=
  (snapshots.toList.map Prod.snd).filterMap fun perCommit =>
    match endpointDelta range perCommit with
    | some (found, record) =>
        if found = change then
          some (buildItem range isSymbol record (classLabel isSymbol change) change perCommit)
        else none
    | none => none

/-- `classify`, one class of it. -/
def classify (snapshots : StrMap (StrMap NodeRecord)) (change : RangeDeltaClass) :
    List RangeDeltaItem :=
  ((classRows range isSymbol snapshots change).filterMap Prod.fst).insertionSort itemBefore

/-- The diagnostics of `classify`. -/
def classifyUnresolved (snapshots : StrMap (StrMap NodeRecord)) : List RangeDeltaDiagnostic :=
  [RangeDeltaClass.added, .removed, .modified].flatMap fun change =>
    (classRows range isSymbol snapshots change).flatMap Prod.snd

/-- The order of diagnostics. -/
def unresolvedOrder : RangeDeltaDiagnostic → RangeDeltaDiagnostic → Ordering :=
  compareLex (compareOn fun diagnostic => asBytes diagnostic.code)
    (compareLex (compareOn fun diagnostic => asBytes diagnostic.recordId)
      (compareOn fun diagnostic => asBytes diagnostic.detail))

instance : Std.TransCmp unresolvedOrder := inferInstanceAs (Std.TransCmp (compareLex _ _))

end Rows

/-- `range_deltas`. -/
def rangeDeltas (toLowercase : String → String) (records : List GraphRecord)
    (basePrefix headPrefix : String) (repoScope : Option String) :
    Except RangeDeltasError RangeDeltas :=
  match resolveRangeScope toLowercase records basePrefix headPrefix repoScope with
  | .error fault => .error fault
  | .ok scope =>
      match resolveCommitRange toLowercase records scope.inScope basePrefix headPrefix with
      | .error fault => .error fault
      | .ok range =>
          let fileSnapshots := temporalSnapshotIndex records .file scope.inScope
          let symbolSnapshots := temporalSnapshotIndex records .symbol scope.inScope
          let unresolved := classifyUnresolved range true symbolSnapshots ++
            classifyUnresolved range false fileSnapshots
          .ok {
            base := range.baseSha
            head := range.headSha
            rangeCommitCount := range.rangeCommitShas.size
            addedSymbols := classify range true symbolSnapshots .added
            removedSymbols := classify range true symbolSnapshots .removed
            modifiedSymbols := classify range true symbolSnapshots .modified
            addedFiles := classify range false fileSnapshots .added
            removedFiles := classify range false fileSnapshots .removed
            modifiedFiles := classify range false fileSnapshots .modified
            unresolved := dedupBy unresolvedOrder (unresolved.insertionSort
              fun diagnostic other => unresolvedOrder diagnostic other ≠ .gt) }

end Egregore
