import Egregore.Query.Repo
import Egregore.Query.TransactionTime

/-!
# Symbol lifelines

`query/lifeline.rs`: the commits at which a symbol was introduced, modified, removed and
reintroduced, found in one sweep over the commits of its repository. The corpus disclosure of an
event is set by the command and left out.
-/

namespace Egregore

open Base

/-- `LifelineEventKind`. -/
inductive LifelineEventKind where
  | introduced | modified | removed | reintroduced
  deriving DecidableEq, Repr

/-- `LifelineEvent`. -/
structure LifelineEvent where
  eventType : LifelineEventKind
  recordId : String
  commit : String
  validTime : String
  repoRelativePath : Option String := none
  span : Option String := none
  absentSpanReason : Option String := none
  driftRecordId : Option String := none
  driftScore : Option String := none
  deriving DecidableEq, Repr

/-- `LifelineError`. -/
inductive LifelineError where
  | unknownSymbol (query : String)
  | ambiguousSymbol (query : String) (candidates : List String)
  deriving DecidableEq, Repr

section Symbol

variable (records : List GraphRecord) (query : String) (repoId : Option String)

/-- `tombstone_map`: the last tombstone of each deleted ID. -/
def tombstoneMap : StrMap String :=
  records.foldl (insertEntry fun record =>
    match record with
    | .tombstone tombstone => some (tombstone.deletedId, tombstone.id)
    | _ => none) ∅

/-- `is_owned`. -/
def isOwned (index : RepositoryIndex) (id : String) : Bool :=
  match repoId with
  | none => true
  | some repo => index.ownerOf id = some repo

/-- `matching_symbol_ids`. -/
def matchingSymbolIds : StrSet :=
  let index := RepositoryIndex.build records
  let tombstones := tombstoneMap records
  (nodesOf records).foldl (fun found node =>
    if node.kind = .symbol ∧ tombstones.contains node.id = false ∧
        isOwned repoId index node.id ∧ (node.id = query ∨ node.name = some query) then
      found.insert node.id
    else found) ∅

/-- The symbol that a query names. -/
def resolveSymbol : Except LifelineError String :=
  match (matchingSymbolIds records query repoId).toList with
  | [] => .error (.unknownSymbol query)
  | [id] => .ok id
  | candidates => .error (.ambiguousSymbol query candidates)

end Symbol

section Sweep

variable (stableId : List String → String) (records : List GraphRecord) (target : String)

/-- The name and the history of a commit of the symbol's repository. -/
def repositoryCommit (index : RepositoryIndex) (node : NodeRecord) :
    Option (String × TemporalMetadata) :=
  match node.name, node.temporal with
  | some sha, some temporal =>
      if node.kind = .commit ∧ index.ownerOf node.id = index.ownerOf target then
        some (sha, temporal)
      else none
  | _, _ => none

/-- The commits of the symbol's repository, once for each record. -/
def repositoryCommits : List (String × TemporalMetadata) :=
  (nodesOf records).filterMap (repositoryCommit target (RepositoryIndex.build records))

/-- `commit_valid_times`. -/
def commitValidTimes : StrMap String :=
  (repositoryCommits records target).foldl
    (insertEntry fun commit => some (commit.1, commit.2.validTime)) ∅

/-- `parent_map`. -/
def lifelineParents : StrMap (List String) :=
  (repositoryCommits records target).foldl
    (insertEntry fun commit => some (commit.1, commit.2.gitParentCommits)) ∅

/-- `symbol_snapshots`. A body of `symbol_snapshot_bodies` is the summary of its snapshot. -/
def symbolSnapshots : StrMap NodeRecord :=
  (nodesOf records).foldl (insertEntry fun node =>
    if node.kind = .symbol ∧ node.id = target then
      node.temporal.map fun temporal => (temporal.gitCommit, node)
    else none) ∅

/-- `drift_map`. -/
def driftMap : StrMap NodeRecord :=
  (nodesOf records).foldl (insertEntry fun node =>
    if node.kind = .semanticDrift ∧
        node.field "semantic_drift.target_record_id" = some target then
      (node.field "semantic_drift.after_git_commit").map fun commit => (commit, node)
    else none) ∅

/-- By rank, then by SHA. -/
def commitBefore (order : CommitOrder) : String → String → Ordering :=
  compareLex (compareOn order.rankAt) byteOrder

/-- `repo_commits`, sorted. -/
def sweptCommits : List String :=
  let order := CommitOrder.build records
  ((repositoryCommits records target).map Prod.fst).insertionSort fun sha later =>
    commitBefore order sha later ≠ .gt

/-- `symbol_body_changed`. -/
def symbolBodyChanged (commit summary : String) : Bool :=
  let snapshots := symbolSnapshots records target
  match (lifelineParents records target)[commit]? with
  | none => true
  | some parents =>
      if parents.isEmpty then true
      else
        let bodies := parents.filterMap fun parent => snapshots[parent]?.map NodeRecord.summary
        bodies.any (· ≠ summary) || bodies.isEmpty

/-- The state of the sweep. -/
structure LifelineSweep where
  events : List LifelineEvent := []
  commitLive : StrMap Bool := ∅
  introducedCommits : StrSet := ∅

/-- `was_live_at_any_parent`. -/
def wasLiveAtAnyParent (sweep : LifelineSweep) (commit : String) : Bool :=
  match (lifelineParents records target)[commit]? with
  | none => false
  | some parents => parents.any fun parent => sweep.commitLive.getD parent false

/-- The event of a snapshot, without its drift. -/
def snapshotEvent (eventType : LifelineEventKind) (commit : String) (node : NodeRecord) :
    LifelineEvent where
  eventType := eventType
  recordId := target
  commit := commit
  validTime := (commitValidTimes records target).getD commit ""
  repoRelativePath := node.repoRelativePath
  span := node.field "span"
  absentSpanReason :=
    if (node.field "span").isNone then some "no_span_module_level" else none

/-- The event of a removal. -/
def removalEvent (commit : String) : LifelineEvent where
  eventType := .removed
  recordId := (tombstoneMap records).getD target (stableId ["tombstone", target])
  commit := commit
  validTime := (commitValidTimes records target).getD commit ""
  absentSpanReason := some "tombstone"

/-- The body of the sweep. -/
def sweepCommit (sweep : LifelineSweep) (commit : String) : LifelineSweep :=
  let live := wasLiveAtAnyParent records target sweep commit
  match (symbolSnapshots records target)[commit]? with
  | some node =>
      let drift := (driftMap records target)[commit]?
      let swept :=
        if live then
          if symbolBodyChanged records target commit node.summary || drift.isSome then
            { sweep with
              events := sweep.events ++ [{ snapshotEvent records target .modified commit node with
                driftRecordId := drift.map NodeRecord.id
                driftScore := drift.bind fun node => node.field "semantic_drift.score" }] }
          else sweep
        else if sweep.introducedCommits.toList.any fun introduced =>
            ((CommitOrder.build records).strictDescendants introduced).contains commit then
          { sweep with
            events := sweep.events ++ [snapshotEvent records target .reintroduced commit node] }
        else
          { sweep with
            introducedCommits := sweep.introducedCommits.insert commit
            events := sweep.events ++ [snapshotEvent records target .introduced commit node] }
      { swept with commitLive := swept.commitLive.insert commit true }
  | none =>
      { sweep with
        events :=
          if live then sweep.events ++ [removalEvent stableId records target commit]
          else sweep.events
        commitLive := sweep.commitLive.insert commit false }

/-- The events of a symbol. -/
def lifelineEvents : List LifelineEvent :=
  ((sweptCommits records target).foldl (sweepCommit stableId records target) {}).events

end Sweep

/-- `symbol_lifeline`. -/
def symbolLifeline (stableId : List String → String) (records : List GraphRecord) (query : String)
    (repoId : Option String) : Except LifelineError (List LifelineEvent) :=
  (resolveSymbol records query repoId).map (lifelineEvents stableId records)

end Egregore
