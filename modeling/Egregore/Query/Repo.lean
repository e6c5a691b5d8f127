import Egregore.Base.Claims
import Egregore.Query.Liveness
import Egregore.Query.TxDelta
import Egregore.WorktreeDiff

/-!
# Repository index

`query/repo.rs`: which repository owns a node, and which repository a selector names.
Ownership follows containment, then the paths of stand-alone diagnostics, the targets of
semantic drift and the repository field of log records.
-/

namespace Egregore

open Base

/-- `parse_codegraph_id`. -/
def parseCodegraphId (id : String) : Option (Nat × String) := do
  let rest ← stripPrefix "codegraph:v".toList id.toList
  let (version, suffix) ← splitOnce [':'] rest
  let version ← parseU32 version
  return (version, String.ofList suffix)

def GraphRecord.asNode : GraphRecord → Option NodeRecord
  | .node record => some record
  | _ => none

def GraphRecord.asEdge : GraphRecord → Option EdgeRecord
  | .edge record => some record
  | _ => none

/-- The node records of a slice, in order. -/
def nodesOf (records : List GraphRecord) : List NodeRecord := records.filterMap GraphRecord.asNode

/-- The edge records of a slice, in order. -/
def edgesOf (records : List GraphRecord) : List EdgeRecord := records.filterMap GraphRecord.asEdge

/-- `RepositorySelectorError`. -/
inductive RepositorySelectorError where
  | unknown (selector : String)
  | ambiguous (selector : String) (candidates : List String)
  deriving DecidableEq, Repr

/-- `RepositoryEntry`, with what is read of the identity payload and of the source snapshot: the
`identity_source` and the SHA of a commit head. -/
structure RepositoryEntry where
  display : String
  selectors : StrSet
  identitySource : Option String
  snapshotCommit : Option String
  ingestedAt : Option String
  deriving DecidableEq

/-- `RepositoryIndex`. -/
structure RepositoryIndex where
  owner : StrMap String
  repos : StrMap RepositoryEntry
  highestVersion : StrMap String

/-- What follows the last `/`. -/
def lastSegment (text : String) : String :=
  match rsplitOnce '/' text.toList with
  | some (_, after) => String.ofList after
  | none => text

/-- The handles a `Repository` node answers to. An identity payload always has a basename. -/
def repositoryEntry (node : NodeRecord) : RepositoryEntry :=
  let basename := node.field "repository_identity.basename"
  let handles := match basename with
    | some basename => basename ::
        ["repository_identity.remote_url", "repository_identity.root_commit_sha",
          "repository_identity.canonical_path"].filterMap node.field
    | none => []
  let display := node.name.or basename
  let selectors := handles ++ display.toList
  let shorts := (selectors.map lastSegment).filter (· ≠ "")
  { display := display.getD node.id
    selectors := (selectors ++ shorts).foldl (·.insert ·) ∅
    identitySource := node.field "repository_identity.identity_source"
    snapshotCommit := node.field "source_snapshot.head.sha"
    ingestedAt := node.field "ingested_at" }

section Build

variable (records : List GraphRecord)

/-- The index of the last `Repository` write of each ID. -/
def latestRepo : StrMap Nat :=
  records.zipIdx.foldl (insertEntry fun entry =>
    match entry.1 with
    | .node node => if node.kind = .repository then some (node.id, entry.2) else none
    | _ => none) ∅

/-- The live repositories. -/
def liveRepositories : StrMap RepositoryEntry :=
  let liveness := Liveness.new records
  let latest := latestRepo records
  records.zipIdx.foldl (insertEntry fun entry =>
    match entry.1 with
    | .node node =>
        if node.kind = .repository ∧ latest[node.id]? = some entry.2 ∧
            liveness.deleted node.id = false then
          some (node.id, repositoryEntry node)
        else none
    | _ => none) ∅

/-- The kind of each node, from its first write. -/
def nodeKinds : StrMap NodeKind :=
  (nodesOf records).foldl (fun kinds node => kinds.insertIfNew node.id node.kind) ∅

/-- Whether an edge is containment: `IMPORTS` is, towards an import declaration. -/
def isContainment (kinds : StrMap NodeKind) (edge : EdgeRecord) : Bool :=
  match edge.label with
  | .contains | .defines => true
  | .imports => kinds[edge.target]? = some .importDecl
  | _ => false

/-- The containment adjacency over the current edges. -/
def containmentAdjacency : StrMap (List String) :=
  let liveness := Liveness.new records
  let kinds := nodeKinds records
  records.zipIdx.foldl (pushEntry fun entry =>
    match entry.1 with
    | .edge edge =>
        if isContainment kinds edge && !liveness.deleted edge.id &&
            liveness.isLatestEdgeVersion edge.id entry.2 then
          some (edge.source, edge.target)
        else none
    | _ => none) ∅

/-- Each live repository claims what it contains; a later one overrides. -/
def containmentOwner : StrMap String :=
  let adjacency := containmentAdjacency records
  claimAll (fun node => adjacency.getD node [])
    (1 + (adjacency.keys.map fun node => (adjacency.getD node []).length).sum)
    (liveRepositories records).keys

/-- The owners of the files at each path. -/
def fileOwnersByPath (owner : StrMap String) : StrMap StrSet :=
  ((nodesOf records).filterMap fun node =>
    if node.kind = .file then
      node.repoRelativePath.bind fun path => owner[node.id]?.map fun repo => (path, repo)
    else none).foldl insertLink ∅

/-- The only owner of the files at a diagnostic's path. -/
def diagnosticOwner (fileOwners : StrMap StrSet) (node : NodeRecord) : Option String :=
  if node.kind = .diagnostic then
    node.repoRelativePath.bind fun path =>
      fileOwners[path]?.bind fun owners => if owners.size = 1 then owners.min? else none
  else none

/-- Attribute stand-alone diagnostics through the files at their paths. -/
def attributeDiagnostics (owner : StrMap String) : StrMap String :=
  let liveness := Liveness.new records
  let fileOwners := fileOwnersByPath records owner
  ((nodesOf records).filterMap fun node =>
    if owner.contains node.id || liveness.deleted node.id then none
    else (diagnosticOwner fileOwners node).map fun repo => (node.id, repo)).foldl
      (fun owner entry => owner.insertIfNew entry.1 entry.2) owner

/-- The target of each source's first `DRIFTS_FROM` edge. -/
def driftTargets : StrMap String :=
  (edgesOf records).foldl (fun targets edge =>
    if edge.label = .driftsFrom then targets.insertIfNew edge.source edge.target
    else targets) ∅

/-- The owner that a drift record takes from its target or its prior record. -/
def driftOwner (targets owner : StrMap String) (node : NodeRecord) : Option String :=
  let target := targets[node.id]?.or (node.field "semantic_drift.target_record_id")
  let fallback := node.field "semantic_drift.prior_record_id"
  (target.bind (owner[·]?)).or (fallback.bind (owner[·]?))

/-- Attribute drift records. -/
def attributeDrift (owner : StrMap String) : StrMap String :=
  let targets := driftTargets records
  (nodesOf records).foldl (fun owner node =>
    if node.kind = .semanticDrift ∧ owner.contains node.id = false then
      match driftOwner targets owner node with
      | some repo => owner.insert node.id repo
      | none => owner
    else owner) owner

/-- Attribute log records by their repository field. -/
def attributeLogs (owner : StrMap String) : StrMap String :=
  (nodesOf records).foldl (fun owner node =>
    match node.field "log.repository_id" with
    | some repo => if repo = "" then owner else owner.insertIfNew node.id repo
    | none => owner) owner

end Build

section Versions

/-- `max_by_key` over the versions: the last of the greatest. -/
def highestOf (versions : List (Nat × String)) : Option (Nat × String) :=
  versions.foldl (fun best entry =>
    match best with
    | none => some entry
    | some top => if top.1 ≤ entry.1 then some entry else best) none

/-- Each repository ID with the highest version of its ID. -/
def repoTranslation (repoIds : List String) : StrMap String :=
  let versions : StrMap (List (Nat × String)) := repoIds.foldl (pushEntry fun repo =>
    (parseCodegraphId repo).map fun (version, suffix) => (suffix, (version, repo))) ∅
  versions.toList.foldl (fun translation group =>
    match highestOf group.2 with
    | some highest =>
        group.2.foldl (fun translation entry => translation.insert entry.2 highest.2) translation
    | none => translation) ∅

end Versions

/-- The owners before they are aligned with the highest versions. -/
def rawOwner (records : List GraphRecord) : StrMap String :=
  attributeLogs records (attributeDrift records (attributeDiagnostics records
    (containmentOwner records)))

/-- `RepositoryIndex::build`. -/
def RepositoryIndex.build (records : List GraphRecord) : RepositoryIndex :=
  let repos := liveRepositories records
  let translation := repoTranslation repos.keys
  { owner := (rawOwner records).map fun _ repo => translation.getD repo repo
    repos := repos
    highestVersion := translation }

namespace RepositoryIndex

variable (index : RepositoryIndex)

/-- `owner_of`. -/
def ownerOf (recordId : String) : Option String := index.owner[recordId]?

/-- `display_of`. -/
def displayOf (repositoryId : String) : Option String :=
  index.repos[repositoryId]?.map RepositoryEntry.display

/-- `repository_ids`. -/
def repositoryIds : List String := index.repos.keys

/-- Candidates that are versions of one repository count once, by their highest version. -/
def dedupVersions (candidates : List String) : List String :=
  if candidates.all fun candidate => (parseCodegraphId candidate).isSome then
    let groups : StrMap (Nat × String) := candidates.foldl (fun groups candidate =>
      match parseCodegraphId candidate with
      | some (version, suffix) =>
          let entry := groups.getD suffix (0, "")
          groups.insert suffix (if version > entry.1 then (version, candidate) else entry)
      | none => groups) ∅
    (groups.toList.map fun group => group.2.2).insertionSort fun id other =>
      byteOrder id other ≠ .gt
  else candidates

/-- `resolve_selector`. -/
def resolveSelector (selector : String) : Except RepositorySelectorError String :=
  let highest := fun resolved => index.highestVersion.getD resolved resolved
  if index.repos.contains selector then .ok (highest selector)
  else
    let candidates := (index.repos.toList.filter fun repo =>
      repo.2.selectors.contains selector).map Prod.fst
    match if candidates.length > 1 then dedupVersions candidates else candidates with
    | [] => .error (.unknown selector)
    | [single] => .ok (highest single)
    | candidates => .error (.ambiguous selector candidates)

end RepositoryIndex

end Egregore
