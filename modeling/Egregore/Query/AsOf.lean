import Egregore.Query.Repo

/-!
# HEAD anchoring

`query/as_of.rs`: the head commit that each repository's source snapshot stamps, and the
record IDs that no current lane reads because their every version lies off those heads.
-/

namespace Egregore

open Base

/-- The commit at the head of a node's source snapshot; other heads have none. -/
def NodeRecord.snapshotCommit (node : NodeRecord) : Option String :=
  node.field "source_snapshot.head.sha"

/-- The commit that a `Repository` record stamps. -/
def GraphRecord.repositoryHead : GraphRecord → Option String
  | .node record => if record.kind = .repository then record.snapshotCommit else none
  | _ => none

/-- The ID that a tombstone deletes. -/
def GraphRecord.deletedId? : GraphRecord → Option String
  | .tombstone record => some record.deletedId
  | _ => none

/-- `collect_repo_heads`. -/
def collectRepoHeads (records : List GraphRecord) : StrMap String :=
  let tombstoned : StrSet := (records.filterMap GraphRecord.deletedId?).foldl (·.insert ·) ∅
  records.foldl (insertEntry fun record =>
    if tombstoned.contains record.id then none
    else record.repositoryHead.map fun sha => (record.id, sha)) ∅

/-- `store_has_source_snapshot`. -/
def storeHasSourceSnapshot (records : List GraphRecord) : Bool :=
  !(collectRepoHeads records).isEmpty

/-- Whether a stamped version is current, given its owner if it has one. -/
def versionCurrent (heads : StrMap String) (owner : Option String) (commit : String) : Bool :=
  match owner with
  | none => heads.toList.any fun entry => entry.2 = commit
  | some owner =>
      match heads[owner]? with
      | none => true
      | some head => commit = head

/-- Whether a version is current; one without a stamp always is. -/
def recordCurrent (heads : StrMap String) (index : RepositoryIndex) (record : GraphRecord) : Bool :=
  match record.temporal with
  | none => true
  | some stamp => versionCurrent heads (index.ownerOf record.id) stamp.gitCommit

/-- `non_head_current_record_ids`. -/
def nonHeadCurrentRecordIds (records : List GraphRecord) (index : RepositoryIndex) : StrSet :=
  let repoHeads := collectRepoHeads records
  if repoHeads.isEmpty then ∅
  else
    let current := records.filter (recordCurrent repoHeads index)
    let offHead := records.filter fun record => !recordCurrent repoHeads index record
    let hasCurrent : StrSet := (current.map GraphRecord.id).foldl (·.insert ·) ∅
    let hasOffHeadOnly : StrSet := (offHead.map GraphRecord.id).foldl (·.insert ·) ∅
    hasOffHeadOnly.filter fun id => !hasCurrent.contains id

end Egregore
