import Egregore.Base.Dedup
import Egregore.Query.CommitRank
import Egregore.Query.Lifeline
import Egregore.Query.RepoSpec

/-!
# The transitions of a symbol

What a lifeline should report of a commit graph, and when it does: `reportsTransitions_iff`. A
commit that is recorded twice is swept twice, and a symbol with a tombstone is not found.
-/

namespace Egregore

open Base

/-! ### The commit graph -/

section Statement

variable (records : List GraphRecord) (target : String)

/-- The commit is recorded in the repository of the symbol. -/
def RepositoryCommit (commit : String) : Prop :=
  commit ∈ (repositoryCommits records target).map Prod.fst

/-- The last record of the commit in the repository lists the parent. -/
def CommitParent (commit parent : String) : Prop :=
  ∃ entry, lastEvent (fun entry => entry.1 = commit) (repositoryCommits records target) =
    some entry ∧ parent ∈ entry.2.gitParentCommits

/-- A version of the symbol at the commit. -/
def isSnapshotAt (commit : String) (node : NodeRecord) : Bool :=
  node.kind = .symbol && node.id = target && nodeGitCommit node = some commit

/-- The last version of the symbol at the commit. -/
def SnapshotAt (commit : String) (node : NodeRecord) : Prop :=
  lastEvent (isSnapshotAt target commit) (nodesOf records) = some node

/-- The symbol has a snapshot at the commit. -/
def Snapped (commit : String) : Prop := ∃ node, SnapshotAt records target commit node

/-- A drift record of the symbol names the commit. -/
def DriftsAt (commit : String) : Prop :=
  ∃ node ∈ nodesOf records, node.kind = .semanticDrift ∧
    node.field "semantic_drift.target_record_id" = some target ∧
    node.field "semantic_drift.after_git_commit" = some commit

/-- The symbol is there at the commit, and at none of its parents. -/
def Opens (commit : String) : Prop :=
  Snapped records target commit ∧
    ∀ parent, CommitParent records target commit parent → ¬ Snapped records target parent

/-- The symbol is gone at the commit, and there at a parent. -/
def Closes (commit : String) : Prop :=
  ¬ Snapped records target commit ∧
    ∃ parent, CommitParent records target commit parent ∧ Snapped records target parent

/-- The symbol is there at the commit and a parent, with another body than at some parent or with a
drift record. -/
def Changes (commit : String) : Prop :=
  ∃ node, SnapshotAt records target commit node ∧
    (∃ parent, CommitParent records target commit parent ∧ Snapped records target parent) ∧
    ((∃ parent prior, CommitParent records target commit parent ∧
      SnapshotAt records target parent prior ∧ prior.summary ≠ node.summary) ∨
      DriftsAt records target commit)

/-- The lifeline has an event of this kind at the commit. -/
def EventAt (events : List LifelineEvent) (kind : LifelineEventKind) (commit : String) : Prop :=
  ∃ event ∈ events, event.commit = commit ∧ event.eventType = kind

/-- The events are the transitions of the commit graph. -/
structure LifelineLaw (events : List LifelineEvent) : Prop where
  once : (events.map LifelineEvent.commit).Nodup
  within : ∀ event ∈ events, RepositoryCommit records target event.commit
  opened : ∀ commit, RepositoryCommit records target commit →
    (EventAt events .introduced commit ∨ EventAt events .reintroduced commit ↔
      Opens records target commit)
  reintroduced : ∀ commit, RepositoryCommit records target commit →
    (EventAt events .reintroduced commit ↔ Opens records target commit ∧
      ∃ earlier, EventAt events .introduced earlier ∧
        Descends (records.filterMap GraphRecord.node?) earlier commit)
  removed : ∀ commit, RepositoryCommit records target commit →
    (EventAt events .removed commit ↔ Closes records target commit)
  modified : ∀ commit, RepositoryCommit records target commit →
    (EventAt events .modified commit ↔ Changes records target commit)
  ordered : events.Pairwise fun earlier later =>
    ¬ Descends (records.filterMap GraphRecord.node?) later.commit earlier.commit

/-- The query for the symbol answers with its transitions. -/
def ReportsTransitions (stableId : List String → String) (repoId : Option String) : Prop :=
  resolveSymbol records target repoId = .ok target ∧
    ∃ events, symbolLifeline stableId records target repoId = .ok events ∧
      LifelineLaw records target events

/-- The commits of the repository are named by their history. -/
def CommitsNamed : Prop :=
  ∀ entry ∈ repositoryCommits records target, entry.2.gitCommit = entry.1

/-- What a lifeline relies on. -/
structure LifelineSettled (repoId : Option String) : Prop where
  /-- No tombstone was ever written for the symbol. -/
  kept : ∀ tombstone, .tombstone tombstone ∈ records → tombstone.deletedId ≠ target
  /-- It belongs to the repository that is asked for. -/
  owned : ∀ repo ∈ repoId, (RepositoryIndex.build records).ownerOf target = some repo
  /-- No other symbol of the scope has its ID for a name. -/
  alone : ∀ node ∈ nodesOf records, node.kind = .symbol → node.name = some target →
    (∀ tombstone, .tombstone tombstone ∈ records → tombstone.deletedId ≠ node.id) →
    (∀ repo ∈ repoId, (RepositoryIndex.build records).ownerOf node.id = some repo) →
      node.id = target
  /-- No commit with a transition is recorded twice. -/
  once : ∀ commit, Opens records target commit ∨ Closes records target commit ∨
    Changes records target commit →
      ((repositoryCommits records target).map Prod.fst).count commit ≤ 1
  /-- A commit with a snapshot at some parent has one at a parent of the repository. -/
  recorded : ∀ commit, RepositoryCommit records target commit →
    (∃ parent, CommitParent records target commit parent ∧ Snapped records target parent) →
      ∃ parent, CommitParent records target commit parent ∧
        RepositoryCommit records target parent ∧ Snapped records target parent

end Statement

/-! ### The collections -/

section Collections

variable {records : List GraphRecord} {target : String}

/-- The last item with an entry for a key decides what the key is mapped to. -/
theorem getElem?_insertEntries {α ν : Type*} (entry : α → Option (String × ν)) (items : List α)
    (key : String) :
    (items.foldl (insertEntry entry) (∅ : StrMap ν))[key]? =
      (lastEvent (fun item => (entry item).map Prod.fst = some key) items).bind fun item =>
        (entry item).map Prod.snd := by
  induction items using List.reverseRecOn with
  | nil => simp [lastEvent]
  | append_singleton items last ih =>
      rw [List.foldl_append, List.foldl_cons, List.foldl_nil, insertEntry, lastEvent,
        List.filter_append]
      cases made : entry last with
      | none => simpa [made, lastEvent] using ih
      | some pair =>
          by_cases same : pair.1 = key
          · simp [made, same]
          · simpa [made, same, lastEvent, getElem?_insert_eq] using ih

/-- The map holds the snapshot of the symbol at each commit that has one. -/
theorem getElem?_symbolSnapshots {commit : String} {node : NodeRecord} :
    (symbolSnapshots records target)[commit]? = some node ↔
      SnapshotAt records target commit node := by
  have same : (fun node : NodeRecord => decide (((if node.kind = .symbol ∧ node.id = target then
      node.temporal.map fun temporal => (temporal.gitCommit, node)
      else none).map Prod.fst) = some commit)) = isSnapshotAt target commit := by
    funext node
    by_cases symbol : node.kind = .symbol ∧ node.id = target
    · cases observed : node.temporal <;> simp [isSnapshotAt, nodeGitCommit, symbol, observed]
    · rw [if_neg symbol, isSnapshotAt, ← Bool.decide_and, decide_eq_false symbol]
      simp
  rw [symbolSnapshots, getElem?_insertEntries, same, SnapshotAt, Option.bind_eq_some_iff]
  constructor
  · rintro ⟨found, latest, made⟩
    split at made
    · rw [Option.map_map, Option.map_eq_some_iff] at made
      obtain ⟨temporal, -, rfl⟩ := made
      exact latest
    · cases made
  · intro latest
    have holds := (mem_of_lastEvent latest).2
    simp only [isSnapshotAt, Bool.and_eq_true, decide_eq_true_eq, nodeGitCommit,
      Option.map_eq_some_iff] at holds
    obtain ⟨symbol, temporal, observed, rfl⟩ := holds
    exact ⟨node, latest, by rw [if_pos symbol, observed]; rfl⟩

/-- So it tells at which commits the symbol is live. -/
theorem contains_symbolSnapshots {commit : String} :
    (symbolSnapshots records target).contains commit = true ↔ Snapped records target commit := by
  rw [← Std.ExtTreeMap.isSome_getElem?_eq_contains, Option.isSome_iff_exists]
  exact exists_congr fun node => getElem?_symbolSnapshots

/-- The other map tells where it drifted. -/
theorem isSome_driftMap {commit : String} :
    ((driftMap records target)[commit]?).isSome = true ↔ DriftsAt records target commit := by
  have made : ∀ node : NodeRecord, ((if node.kind = .semanticDrift ∧
        node.field "semantic_drift.target_record_id" = some target then
      (node.field "semantic_drift.after_git_commit").map fun commit => (commit, node)
      else none).map Prod.fst) = some commit ↔ node.kind = .semanticDrift ∧
        node.field "semantic_drift.target_record_id" = some target ∧
        node.field "semantic_drift.after_git_commit" = some commit := by
    intro node
    rw [← and_assoc]
    by_cases drift : node.kind = .semanticDrift ∧
        node.field "semantic_drift.target_record_id" = some target
    · simp [drift]
    · simp [drift]
  rw [driftMap, getElem?_insertEntries, Option.isSome_iff_exists, DriftsAt]
  constructor
  · rintro ⟨node, found⟩
    obtain ⟨last, latest, -⟩ := Option.bind_eq_some_iff.mp found
    obtain ⟨member, holds⟩ := mem_of_lastEvent latest
    exact ⟨last, member, (made last).mp (of_decide_eq_true holds)⟩
  · rintro ⟨node, member, drifts⟩
    cases latest : lastEvent (fun node : NodeRecord => decide (((if node.kind = .semanticDrift ∧
        node.field "semantic_drift.target_record_id" = some target then
      (node.field "semantic_drift.after_git_commit").map fun commit => (commit, node)
      else none).map Prod.fst) = some commit)) (nodesOf records) with
    | none =>
        rw [lastEvent, List.getLast?_eq_none_iff, List.filter_eq_nil_iff] at latest
        exact absurd (decide_eq_true ((made node).mpr drifts)) (latest node member)
    | some last =>
        have holds := of_decide_eq_true (mem_of_lastEvent latest).2
        obtain ⟨pair, isPair, -⟩ := Option.map_eq_some_iff.mp holds
        exact ⟨pair.2, by rw [Option.bind_some, isPair]; rfl⟩

/-- The parents of a commit are those that its PARENT edges in the repository name. -/
theorem getElem?_lifelineParents {commit parent : String} :
    (∃ parents, (lifelineParents records target)[commit]? = some parents ∧ parent ∈ parents) ↔
      CommitParent records target commit parent := by
  rw [lifelineParents, getElem?_insertEntries, CommitParent]
  have same : (fun entry : String × TemporalMetadata => decide (((some (entry.1,
      entry.2.gitParentCommits) : Option (String × List String)).map Prod.fst) = some commit)) =
      fun entry => decide (entry.1 = commit) := by
    funext entry
    simp
  rw [same]
  constructor
  · rintro ⟨parents, found, member⟩
    obtain ⟨entry, latest, isParents⟩ := Option.bind_eq_some_iff.mp found
    obtain rfl := Option.some.inj isParents
    exact ⟨entry, latest, member⟩
  · rintro ⟨entry, latest, member⟩
    exact ⟨_, by rw [latest]; rfl, member⟩

/-- The record of a commit of the repository. -/
theorem mem_repositoryCommits {entry : String × TemporalMetadata}
    (member : entry ∈ repositoryCommits records target) :
    ∃ node, .node node ∈ records ∧ node.temporal = some entry.2 := by
  obtain ⟨node, inside, made⟩ := List.mem_filterMap.mp member
  refine ⟨node, mem_nodesOf.mp inside, ?_⟩
  rw [repositoryCommit] at made
  split at made
  · next observed =>
      split at made
      · obtain rfl := Option.some.inj made
        exact observed
      · cases made
  · cases made

/-- Where commits are named by their own nodes, it is a child of that parent. -/
theorem CommitParent.childCommit (named : CommitsNamed records target) {commit parent : String}
    (isParent : CommitParent records target commit parent) :
    ChildCommit (records.filterMap GraphRecord.node?) parent commit := by
  obtain ⟨entry, latest, listed⟩ := isParent
  obtain ⟨member, isCommit⟩ := mem_of_lastEvent latest
  obtain ⟨node, inside, observed⟩ := mem_repositoryCommits member
  exact ⟨node, mem_node?_iff.mpr inside, entry.2, observed,
    (named entry member).trans (of_decide_eq_true isCommit), listed⟩

/-- There a commit of the repository is stored under its hash. -/
theorem RepositoryCommit.stored (named : CommitsNamed records target) {commit : String}
    (isCommit : RepositoryCommit records target commit) : StoredCommit records commit := by
  obtain ⟨entry, member, rfl⟩ := List.mem_map.mp isCommit
  obtain ⟨node, inside, observed⟩ := mem_repositoryCommits member
  exact ⟨node, inside, by rw [nodeGitCommit, observed, ← named entry member]; rfl⟩

/-- The sweep visits the commits of the repository. -/
theorem mem_sweptCommits {commit : String} :
    commit ∈ sweptCommits records target ↔ RepositoryCommit records target commit :=
  List.mem_insertionSort _

end Collections

/-! ### The sweep -/

section Sweep

variable (records : List GraphRecord) (target : String)

/-- A parent in the repository has a snapshot. -/
def LiveParent (commit : String) : Prop :=
  ∃ parent, CommitParent records target commit parent ∧ RepositoryCommit records target parent ∧
    Snapped records target parent

/-- A snapshot without a live parent. -/
def Starts (commit : String) : Prop :=
  Snapped records target commit ∧ ¬ LiveParent records target commit

/-- The symbol started at an ancestor. -/
def Restarts (commit : String) : Prop :=
  ∃ earlier, RepositoryCommit records target earlier ∧ Starts records target earlier ∧
    Descends (records.filterMap GraphRecord.node?) earlier commit

open Classical in
/-- The event that the sweep finds at a commit. -/
noncomputable def transitionAt (stableId : List String → String) (commit : String) :
    Option LifelineEvent :=
  match (symbolSnapshots records target)[commit]? with
  | some node =>
      if LiveParent records target commit then
        let drift := (driftMap records target)[commit]?
        if symbolBodyChanged records target commit node.summary || drift.isSome then
          some { snapshotEvent records target .modified commit node with
            driftRecordId := drift.map NodeRecord.id
            driftScore := drift.bind fun node => node.field "semantic_drift.score" }
        else none
      else if Restarts records target commit then
        some (snapshotEvent records target .reintroduced commit node)
      else some (snapshotEvent records target .introduced commit node)
  | none =>
      if LiveParent records target commit then some (removalEvent stableId records target commit)
      else none

/-- What is known after some commits. -/
structure LifelineSweep.Describes (stableId : List String → String) (done : List String)
    (sweep : LifelineSweep) : Prop where
  events : sweep.events = done.filterMap (transitionAt records target stableId)
  live : ∀ commit, sweep.commitLive.getD commit false = true ↔
    commit ∈ done ∧ Snapped records target commit
  introduced : ∀ commit, commit ∈ sweep.introducedCommits ↔
    commit ∈ done ∧ Starts records target commit ∧ ¬ Restarts records target commit

variable {records target} {stableId : List String → String} {done : List String}
  {sweep : LifelineSweep} {commit : String}

/-- The sweep knows of each commit whether the symbol was live in a parent of it. -/
theorem LifelineSweep.Describes.wasLive_iff
    (described : sweep.Describes records target stableId done)
    (within : ∀ commit ∈ done, RepositoryCommit records target commit)
    (before : ∀ parent, CommitParent records target commit parent →
      RepositoryCommit records target parent → parent ∈ done) :
    wasLiveAtAnyParent records target sweep commit = true ↔ LiveParent records target commit := by
  have any : wasLiveAtAnyParent records target sweep commit = true ↔
      ∃ parent, CommitParent records target commit parent ∧
        sweep.commitLive.getD parent false = true := by
    simp only [← getElem?_lifelineParents]
    rw [wasLiveAtAnyParent]
    cases (lifelineParents records target)[commit]? with
    | none => simp
    | some parents => simp
  rw [any, LiveParent]
  refine exists_congr fun parent => ?_
  rw [described.live]
  constructor
  · rintro ⟨isParent, inside, snapped⟩
    exact ⟨isParent, within parent inside, snapped⟩
  · rintro ⟨isParent, isCommit, snapped⟩
    exact ⟨isParent, before parent isParent isCommit, snapped⟩

/-- The introduction that a return goes back to. -/
theorem exists_introduced (named : CommitsNamed records target)
    (acyclic : ∀ commit, RepositoryCommit records target commit → AcyclicUpTo records commit)
    (restarts : Restarts records target commit) :
    ∃ first, RepositoryCommit records target first ∧ Starts records target first ∧
      ¬ Restarts records target first ∧
        Descends (records.filterMap GraphRecord.node?) first commit := by
  obtain ⟨earlier, isCommit, starts, descends⟩ := restarts
  induction rank : (CommitOrder.build records).rankAt earlier using Nat.strong_induction_on
    generalizing earlier with
  | _ rank ih =>
      by_cases again : Restarts records target earlier
      · obtain ⟨older, isOlder, olderStarts, olderDescends⟩ := again
        have less := (acyclic earlier isCommit).rankAt_lt_of_descends (isOlder.stored named)
          olderDescends
        exact ih _ (rank ▸ less) older isOlder olderStarts (olderDescends.trans descends) rfl
      · exact ⟨earlier, isCommit, starts, again, descends⟩

/-- A turn of the sweep notes whether the symbol is live at its commit. -/
theorem sweepCommit_commitLive :
    (sweepCommit stableId records target sweep commit).commitLive =
      sweep.commitLive.insert commit ((symbolSnapshots records target).contains commit) := by
  rw [sweepCommit]
  cases snapshot : (symbolSnapshots records target)[commit]? with
  | none =>
      have absent : (symbolSnapshots records target).contains commit = false := by
        rw [← Std.ExtTreeMap.isSome_getElem?_eq_contains, snapshot]
        rfl
      rw [absent]
  | some node =>
      have present : (symbolSnapshots records target).contains commit = true := by
        rw [← Std.ExtTreeMap.isSome_getElem?_eq_contains, snapshot]
        rfl
      rw [present]
      dsimp only
      split
      · split <;> rfl
      · split <;> rfl

/-- One commit of the sweep. -/
theorem LifelineSweep.Describes.sweepCommit (named : CommitsNamed records target)
    (acyclic : ∀ commit, RepositoryCommit records target commit → AcyclicUpTo records commit)
    (described : sweep.Describes records target stableId done)
    (within : ∀ commit ∈ done, RepositoryCommit records target commit)
    (before : ∀ earlier, RepositoryCommit records target earlier →
      Descends (records.filterMap GraphRecord.node?) earlier commit → earlier ∈ done) :
    (sweepCommit stableId records target sweep commit).Describes records target stableId
      (done ++ [commit]) := by
  have live : wasLiveAtAnyParent records target sweep commit = true ↔
      LiveParent records target commit :=
    described.wasLive_iff within fun parent isParent isCommit =>
      before parent isCommit (.single (isParent.childCommit named))
  have again : (sweep.introducedCommits.toList.any fun introduced =>
      ((CommitOrder.build records).strictDescendants introduced).contains commit) = true ↔
        Restarts records target commit := by
    simp only [List.any_eq_true, List.contains_iff_mem, mem_strictDescendants,
      Std.ExtTreeSet.mem_toList, described.introduced]
    constructor
    · rintro ⟨earlier, ⟨inside, starts, -⟩, descends⟩
      exact ⟨earlier, within earlier inside, starts, descends⟩
    · intro restarts
      obtain ⟨first, isCommit, starts, isFirst, descends⟩ :=
        exists_introduced named acyclic restarts
      exact ⟨first, ⟨before first isCommit descends, starts, isFirst⟩, descends⟩
  refine ⟨?_, fun other => ?_, fun other => ?_⟩
  · rw [List.filterMap_append, ← described.events, List.filterMap_cons, List.filterMap_nil,
      transitionAt, Egregore.sweepCommit]
    cases snapshot : (symbolSnapshots records target)[commit]? with
    | none => by_cases liveParent : LiveParent records target commit <;> simp [live, liveParent]
    | some node =>
        by_cases liveParent : LiveParent records target commit
        · simp only [live, liveParent, if_true]
          cases changed : (symbolBodyChanged records target commit node.summary ||
            ((driftMap records target)[commit]?).isSome) <;> simp
        · by_cases restarts : Restarts records target commit <;>
            simp only [live, again, liveParent, restarts, if_true, if_false]
  · rw [sweepCommit_commitLive, getD_insert_eq, List.mem_append, List.mem_singleton]
    by_cases same : commit = other
    · subst same
      rw [if_pos rfl, contains_symbolSnapshots]
      simp
    · simp [same, Ne.symm same, described.live]
  · rw [List.mem_append, List.mem_singleton, or_and_right, ← described.introduced,
      Egregore.sweepCommit]
    cases snapshot : (symbolSnapshots records target)[commit]? with
    | none =>
        have absent : ¬ Snapped records target commit := by
          rw [← contains_symbolSnapshots, ← Std.ExtTreeMap.isSome_getElem?_eq_contains, snapshot]
          simp
        refine (or_iff_left ?_).symm
        rintro ⟨rfl, ⟨snapped, -⟩, -⟩
        exact absent snapped
    | some node =>
        have present : Snapped records target commit := ⟨node, getElem?_symbolSnapshots.mp snapshot⟩
        by_cases liveParent : LiveParent records target commit
        · simp only [live, liveParent, if_true]
          have kept : ¬ (other = commit ∧ Starts records target other ∧
              ¬ Restarts records target other) := by
            rintro ⟨rfl, ⟨-, apart⟩, -⟩
            exact apart liveParent
          rw [or_iff_left kept]
          split <;> rfl
        · by_cases restarts : Restarts records target commit
          · simp only [live, again, liveParent, restarts, if_true, if_false]
            refine (or_iff_left ?_).symm
            rintro ⟨rfl, -, isFirst⟩
            exact isFirst restarts
          · simp only [live, again, liveParent, restarts, if_false, Std.ExtTreeSet.mem_insert,
              byteOrder_eq_iff]
            rw [or_comm, eq_comm]
            refine or_congr_right ⟨?_, And.left⟩
            rintro rfl
            exact ⟨rfl, ⟨present, liveParent⟩, restarts⟩

instance (order : CommitOrder) : Std.TransCmp (commitBefore order) :=
  inferInstanceAs (Std.TransCmp (compareLex _ _))

/-- The whole sweep. -/
theorem lifelineEvents_eq (stableId : List String → String) (named : CommitsNamed records target)
    (acyclic : ∀ commit, RepositoryCommit records target commit → AcyclicUpTo records commit) :
    lifelineEvents stableId records target =
      (sweptCommits records target).filterMap (transitionAt records target stableId) := by
  have sorted : (sweptCommits records target).Pairwise fun sha later =>
      commitBefore (CommitOrder.build records) sha later ≠ .gt :=
    pairwise_insertionSort_cmp (commitBefore (CommitOrder.build records)) _
  have run : ∀ (rest done : List String) (sweep : LifelineSweep),
      sweptCommits records target = done ++ rest →
      sweep.Describes records target stableId done →
      (rest.foldl (sweepCommit stableId records target) sweep).Describes records target stableId
        (done ++ rest) := by
    intro rest
    induction rest with
    | nil => exact fun done sweep _ described => by rwa [List.append_nil]
    | cons commit rest ih =>
        intro done sweep listed described
        have within : ∀ other ∈ done ++ commit :: rest, RepositoryCommit records target other :=
          fun other member => mem_sweptCommits.mp (listed ▸ member)
        rw [List.foldl_cons, List.append_cons]
        refine ih _ _ (by rw [listed, List.append_cons]) (described.sweepCommit named acyclic
          (fun other member => within other (List.mem_append_left _ member)) ?_)
        intro earlier isCommit descends
        -- An ancestor has a lower rank, so it is not listed later.
        have less := (acyclic commit (within commit (by simp))).rankAt_lt_of_descends
          (isCommit.stored named) descends
        have inside := mem_sweptCommits.mpr isCommit
        rw [listed, List.mem_append, List.mem_cons] at inside
        rcases inside with before | rfl | later
        · exact before
        · exact absurd less (Nat.lt_irrefl _)
        · rw [listed, List.pairwise_append] at sorted
          refine absurd ?_ ((List.pairwise_cons.mp sorted.2.1).1 earlier later)
          rw [commitBefore, compareLex, compareOn, Nat.compare_eq_gt.mpr less]
          rfl
  exact (run _ [] {} rfl ⟨rfl, by simp, by simp⟩).events

/-! ### Events and transitions -/

section Events

variable (stableId)

/-- The body of a snapshot with a live parent has changed. -/
theorem symbolBodyChanged_iff {node : NodeRecord} (liveParent : LiveParent records target commit) :
    symbolBodyChanged records target commit node.summary = true ↔
      ∃ parent prior, CommitParent records target commit parent ∧
        SnapshotAt records target parent prior ∧ prior.summary ≠ node.summary := by
  obtain ⟨parent, isParent, -, prior, isPrior⟩ := liveParent
  obtain ⟨parents, found, listed⟩ := getElem?_lifelineParents.mpr isParent
  have other : ∀ other, CommitParent records target commit other ↔ other ∈ parents := by
    intro other
    rw [← getElem?_lifelineParents, found]
    simp
  simp only [symbolBodyChanged, found, other, ← getElem?_symbolSnapshots]
  rw [← getElem?_symbolSnapshots] at isPrior
  have nonempty : parents.isEmpty = false := by
    rw [List.isEmpty_eq_false_iff]
    exact List.ne_nil_of_mem listed
  have body : prior.summary ∈
      parents.filterMap fun parent => (symbolSnapshots records target)[parent]?.map
        NodeRecord.summary :=
    List.mem_filterMap.mpr ⟨parent, listed, by rw [isPrior]; rfl⟩
  have bodies : (parents.filterMap fun parent => (symbolSnapshots records target)[parent]?.map
      NodeRecord.summary).isEmpty = false := by
    rw [List.isEmpty_eq_false_iff]
    exact List.ne_nil_of_mem body
  rw [nonempty, bodies, if_neg (by simp), Bool.or_false, List.any_eq_true]
  simp only [List.mem_filterMap, Option.map_eq_some_iff, decide_eq_true_eq]
  constructor
  · rintro ⟨_, ⟨parent, inside, prior, isPrior, rfl⟩, differs⟩
    exact ⟨parent, prior, inside, isPrior, differs⟩
  · rintro ⟨parent, prior, inside, isPrior, differs⟩
    exact ⟨_, ⟨parent, inside, prior, isPrior, rfl⟩, differs⟩

variable (records target) in
/-- What the sweep asks for an event of a kind. -/
def Sweeps (commit : String) : LifelineEventKind → Prop
  | .introduced => Starts records target commit ∧ ¬ Restarts records target commit
  | .reintroduced => Starts records target commit ∧ Restarts records target commit
  | .removed => ¬ Snapped records target commit ∧ LiveParent records target commit
  | .modified => ∃ node, SnapshotAt records target commit node ∧
      LiveParent records target commit ∧
        ((∃ parent prior, CommitParent records target commit parent ∧
          SnapshotAt records target parent prior ∧ prior.summary ≠ node.summary) ∨
          DriftsAt records target commit)

/-- An event is reported at the commit of its turn. -/
theorem transitionAt_commit {event : LifelineEvent}
    (found : transitionAt records target stableId commit = some event) : event.commit = commit := by
  rw [transitionAt] at found
  cases snapshot : (symbolSnapshots records target)[commit]? with
  | none =>
      simp only [snapshot, Option.ite_none_right_eq_some, Option.some.injEq] at found
      rw [← found.2]
      rfl
  | some node =>
      simp only [snapshot] at found
      by_cases liveParent : LiveParent records target commit
      · simp only [liveParent, if_true, Option.ite_none_right_eq_some, Option.some.injEq] at found
        rw [← found.2]
        rfl
      · by_cases restarts : Restarts records target commit
        · simp only [liveParent, restarts, if_true, if_false, Option.some.injEq] at found
          rw [← found]
          rfl
        · simp only [liveParent, restarts, if_false, Option.some.injEq] at found
          rw [← found]
          rfl

/-- Its kind is what the commit did to the symbol. -/
theorem transitionAt_kind_iff {kind : LifelineEventKind} :
    (∃ event, transitionAt records target stableId commit = some event ∧
      event.eventType = kind) ↔ Sweeps records target commit kind := by
  rw [transitionAt]
  cases snapshot : (symbolSnapshots records target)[commit]? with
  | none =>
      have absent : ¬ Snapped records target commit := by
        rw [← contains_symbolSnapshots, ← Std.ExtTreeMap.isSome_getElem?_eq_contains, snapshot]
        simp
      have unsnapped : ∀ node, ¬ SnapshotAt records target commit node :=
        fun node isSnapshot => absent ⟨node, isSnapshot⟩
      by_cases liveParent : LiveParent records target commit
      · cases kind <;> simp [Sweeps, Starts, liveParent, absent, unsnapped, removalEvent]
      · cases kind <;> simp [Sweeps, Starts, liveParent, absent]
  | some node =>
      have isSnapshot := getElem?_symbolSnapshots.mp snapshot
      have present : Snapped records target commit := ⟨node, isSnapshot⟩
      have only : ∀ other, SnapshotAt records target commit other ↔ other = node := by
        intro other
        rw [← getElem?_symbolSnapshots, snapshot, Option.some.injEq, eq_comm]
      by_cases liveParent : LiveParent records target commit
      · have changed : (symbolBodyChanged records target commit node.summary ||
            ((driftMap records target)[commit]?).isSome) = true ↔
          ((∃ parent prior, CommitParent records target commit parent ∧
            SnapshotAt records target parent prior ∧ prior.summary ≠ node.summary) ∨
            DriftsAt records target commit) := by
          rw [Bool.or_eq_true, symbolBodyChanged_iff liveParent, isSome_driftMap]
        simp only [liveParent, if_true]
        by_cases changes : (∃ parent prior, CommitParent records target commit parent ∧
            SnapshotAt records target parent prior ∧ prior.summary ≠ node.summary) ∨
            DriftsAt records target commit
        · rw [if_pos (changed.mpr changes)]
          cases kind with
          | modified => simpa [Sweeps, only, liveParent, snapshotEvent] using changes
          | introduced => simp [Sweeps, Starts, liveParent, snapshotEvent]
          | reintroduced => simp [Sweeps, Starts, liveParent, snapshotEvent]
          | removed => simp [Sweeps, present, snapshotEvent]
        · rw [if_neg (mt changed.mp changes)]
          cases kind with
          | modified => simpa [Sweeps, only, liveParent] using changes
          | introduced => simp [Sweeps, Starts, liveParent]
          | reintroduced => simp [Sweeps, Starts, liveParent]
          | removed => simp [Sweeps, present]
      · by_cases restarts : Restarts records target commit
        · cases kind <;> simp [Sweeps, Starts, liveParent, present, restarts, snapshotEvent]
        · cases kind <;> simp [Sweeps, Starts, liveParent, present, restarts, snapshotEvent]

section Answer

variable (named : CommitsNamed records target)
  (acyclic : ∀ commit, RepositoryCommit records target commit → AcyclicUpTo records commit)

include named acyclic

/-- The lifeline has the events of all commits. -/
theorem eventAt_lifelineEvents {kind : LifelineEventKind} :
    EventAt (lifelineEvents stableId records target) kind commit ↔
      RepositoryCommit records target commit ∧ Sweeps records target commit kind := by
  rw [lifelineEvents_eq stableId named acyclic, ← transitionAt_kind_iff stableId,
    ← mem_sweptCommits, EventAt]
  simp only [List.mem_filterMap]
  constructor
  · rintro ⟨event, ⟨other, inside, found⟩, same, isKind⟩
    obtain rfl : other = commit := (transitionAt_commit stableId found).symm.trans same
    exact ⟨inside, event, found, isKind⟩
  · rintro ⟨inside, event, found, isKind⟩
    exact ⟨event, ⟨commit, inside, found⟩, transitionAt_commit stableId found, isKind⟩

/-- A symbol comes back when it was introduced at an ancestor already. -/
theorem restarts_iff :
    Restarts records target commit ↔
      ∃ earlier, EventAt (lifelineEvents stableId records target) .introduced earlier ∧
        Descends (records.filterMap GraphRecord.node?) earlier commit := by
  constructor
  · intro restarts
    obtain ⟨first, isFirst, starts, fresh, descends⟩ := exists_introduced named acyclic restarts
    exact ⟨first, (eventAt_lifelineEvents stableId named acyclic).mpr ⟨isFirst, starts, fresh⟩,
      descends⟩
  · rintro ⟨earlier, event, descends⟩
    obtain ⟨isEarlier, starts, -⟩ := (eventAt_lifelineEvents stableId named acyclic).mp event
    exact ⟨earlier, isEarlier, starts, descends⟩

/-- The commits of the events, each as often as it is recorded. -/
theorem nodup_lifelineEvents_iff :
    ((lifelineEvents stableId records target).map LifelineEvent.commit).Nodup ↔
      ∀ commit kind, Sweeps records target commit kind →
        ((repositoryCommits records target).map Prod.fst).count commit ≤ 1 := by
  have commits : (lifelineEvents stableId records target).map LifelineEvent.commit =
      (sweptCommits records target).filter fun commit =>
        (transitionAt records target stableId commit).isSome := by
    rw [lifelineEvents_eq stableId named acyclic, List.map_filterMap, ← List.filterMap_eq_filter]
    refine List.filterMap_congr fun commit _ => ?_
    cases found : transitionAt records target stableId commit with
    | none => simp [Option.guard, found]
    | some event => simp [Option.guard, found, transitionAt_commit stableId found]
  have counts : ∀ commit, (sweptCommits records target).count commit =
      ((repositoryCommits records target).map Prod.fst).count commit :=
    fun commit => (List.perm_insertionSort _ _).count_eq commit
  rw [commits, List.nodup_iff_count_le_one]
  constructor
  · intro once commit kind sweeps
    obtain ⟨event, found, -⟩ := (transitionAt_kind_iff stableId).mpr sweeps
    have := once commit
    rwa [List.count_filter (by rw [found]; rfl), counts] at this
  · intro once commit
    cases found : transitionAt records target stableId commit with
    | none =>
        rw [List.count_eq_zero.mpr]
        · exact Nat.zero_le 1
        · intro member
          have := (List.mem_filter.mp member).2
          rw [found] at this
          cases this
    | some event =>
        rw [List.count_filter (by rw [found]; rfl), counts]
        exact once commit event.eventType ((transitionAt_kind_iff stableId).mp ⟨event, found, rfl⟩)

/-- The events are the transitions exactly if no commit with one is recorded twice and each
snapshot at a parent shows at a parent of the repository. -/
theorem lifelineLaw_iff :
    LifelineLaw records target (lifelineEvents stableId records target) ↔
      (∀ commit, Opens records target commit ∨ Closes records target commit ∨
        Changes records target commit →
          ((repositoryCommits records target).map Prod.fst).count commit ≤ 1) ∧
      ∀ commit, RepositoryCommit records target commit →
        (∃ parent, CommitParent records target commit parent ∧ Snapped records target parent) →
          LiveParent records target commit := by
  have events := fun commit kind =>
    @eventAt_lifelineEvents _ _ stableId commit named acyclic kind
  constructor
  · intro law
    have recorded : ∀ commit, RepositoryCommit records target commit →
        (∃ parent, CommitParent records target commit parent ∧ Snapped records target parent) →
          LiveParent records target commit := by
      intro commit isCommit live
      by_contra notLive
      by_cases snapped : Snapped records target commit
      · have starts : Starts records target commit := ⟨snapped, notLive⟩
        have opened : EventAt (lifelineEvents stableId records target) .introduced commit ∨
            EventAt (lifelineEvents stableId records target) .reintroduced commit := by
          by_cases restarts : Restarts records target commit
          · exact Or.inr ((events commit .reintroduced).mpr ⟨isCommit, starts, restarts⟩)
          · exact Or.inl ((events commit .introduced).mpr ⟨isCommit, starts, restarts⟩)
        obtain ⟨parent, isParent, parentSnapped⟩ := live
        exact ((law.opened commit isCommit).mp opened).2 parent isParent parentSnapped
      · have removed := (law.removed commit isCommit).mpr ⟨snapped, live⟩
        exact notLive ((events commit .removed).mp removed).2.2
    refine ⟨fun commit transition => ?_, recorded⟩
    by_cases isCommit : RepositoryCommit records target commit
    · have sweeps : ∃ kind, Sweeps records target commit kind := by
        rcases transition with opens | closes | changes
        · rcases (law.opened commit isCommit).mpr opens with first | again
          · exact ⟨_, ((events commit .introduced).mp first).2⟩
          · exact ⟨_, ((events commit .reintroduced).mp again).2⟩
        · exact ⟨_, ((events commit .removed).mp ((law.removed commit isCommit).mpr closes)).2⟩
        · exact ⟨_, ((events commit .modified).mp ((law.modified commit isCommit).mpr changes)).2⟩
      obtain ⟨kind, sweeps⟩ := sweeps
      exact (nodup_lifelineEvents_iff stableId named acyclic).mp law.once commit kind sweeps
    · rw [List.count_eq_zero.mpr isCommit]
      exact Nat.zero_le 1
  · rintro ⟨once, recorded⟩
    have live : ∀ commit, RepositoryCommit records target commit →
        ((∃ parent, CommitParent records target commit parent ∧ Snapped records target parent) ↔
          LiveParent records target commit) := fun commit isCommit =>
      ⟨recorded commit isCommit, fun ⟨parent, isParent, _, snapped⟩ => ⟨parent, isParent, snapped⟩⟩
    have opens : ∀ commit, RepositoryCommit records target commit →
        (Opens records target commit ↔ Starts records target commit) := by
      intro commit isCommit
      rw [Opens, Starts, ← live commit isCommit]
      push Not
      rfl
    have closes : ∀ commit, RepositoryCommit records target commit →
        (Closes records target commit ↔ Sweeps records target commit .removed) := by
      intro commit isCommit
      rw [Closes, live commit isCommit]
      rfl
    have changes : ∀ commit, RepositoryCommit records target commit →
        (Changes records target commit ↔ Sweeps records target commit .modified) := by
      intro commit isCommit
      rw [Changes, live commit isCommit]
      rfl
    refine ⟨(nodup_lifelineEvents_iff stableId named acyclic).mpr fun commit kind sweeps => ?_,
      fun event member => ?_, fun commit isCommit => ?_, fun commit isCommit => ?_,
      fun commit isCommit => ?_, fun commit isCommit => ?_, ?_⟩
    · by_cases isCommit : RepositoryCommit records target commit
      · refine once commit ?_
        cases kind with
        | introduced => exact Or.inl ((opens commit isCommit).mpr sweeps.1)
        | reintroduced => exact Or.inl ((opens commit isCommit).mpr sweeps.1)
        | removed => exact Or.inr (Or.inl ((closes commit isCommit).mpr sweeps))
        | modified => exact Or.inr (Or.inr ((changes commit isCommit).mpr sweeps))
      · rw [List.count_eq_zero.mpr isCommit]
        exact Nat.zero_le 1
    · exact ((events event.commit event.eventType).mp ⟨event, member, rfl, rfl⟩).1
    · rw [events, events, opens commit isCommit]
      constructor
      · rintro (⟨-, starts, -⟩ | ⟨-, starts, -⟩)
        · exact starts
        · exact starts
      · intro starts
        by_cases restarts : Restarts records target commit
        · exact Or.inr ⟨isCommit, starts, restarts⟩
        · exact Or.inl ⟨isCommit, starts, restarts⟩
    · rw [events, opens commit isCommit, ← restarts_iff stableId named acyclic]
      exact ⟨And.right, fun again => ⟨isCommit, again⟩⟩
    · rw [events, closes commit isCommit]
      exact ⟨And.right, fun removed => ⟨isCommit, removed⟩⟩
    · rw [events, changes commit isCommit]
      exact ⟨And.right, fun modified => ⟨isCommit, modified⟩⟩
    · rw [lifelineEvents_eq stableId named acyclic]
      have sorted : (sweptCommits records target).Pairwise fun sha later =>
          commitBefore (CommitOrder.build records) sha later ≠ .gt :=
        pairwise_insertionSort_cmp (commitBefore (CommitOrder.build records)) _
      refine List.pairwise_filterMap.mpr (sorted.imp_of_mem ?_)
      intro sha later inside inside' before event found event' found' descends
      rw [transitionAt_commit stableId found, transitionAt_commit stableId found'] at descends
      have less := (acyclic sha (mem_sweptCommits.mp inside)).rankAt_lt_of_descends
        ((mem_sweptCommits.mp inside').stored named) descends
      refine before ?_
      rw [commitBefore, compareLex, compareOn, Nat.compare_eq_gt.mpr less]
      rfl

end Answer

end Events

end Sweep

/-! ### The symbol -/

section Symbol

variable {records : List GraphRecord} {target : String} {repoId : Option String}

/-- The map of tombstones has the deleted IDs. -/
theorem contains_tombstoneMap {id : String} :
    (tombstoneMap records).contains id = false ↔
      ∀ tombstone, .tombstone tombstone ∈ records → tombstone.deletedId ≠ id := by
  rw [← Bool.not_eq_true, ← Std.ExtTreeMap.isSome_getElem?_eq_contains, tombstoneMap,
    getElem?_insertEntries]
  cases latest : lastEvent _ records with
  | none =>
      rw [lastEvent, List.getLast?_eq_none_iff, List.filter_eq_nil_iff] at latest
      refine ⟨fun _ tombstone member same => ?_, fun _ => by simp⟩
      exact latest _ member (decide_eq_true (congrArg some same))
  | some last =>
      obtain ⟨member, holds⟩ := mem_of_lastEvent latest
      cases last with
      | node node => cases of_decide_eq_true holds
      | edge edge => cases of_decide_eq_true holds
      | tombstone tombstone =>
          refine ⟨fun absent => absurd rfl absent, fun kept => ?_⟩
          exact absurd (Option.some.inj (of_decide_eq_true holds)) (kept tombstone member)

/-- Without a scope every record is in scope. -/
theorem isOwned_iff {index : RepositoryIndex} {id : String} :
    isOwned repoId index id = true ↔ ∀ repo ∈ repoId, index.ownerOf id = some repo := by
  cases repoId with
  | none => simp [isOwned]
  | some repo => simp [isOwned]

/-- The candidates are live symbols of the scope that the query names. -/
theorem mem_matchingSymbolIds {query id : String} :
    id ∈ matchingSymbolIds records query repoId ↔
      ∃ node ∈ nodesOf records, node.id = id ∧ node.kind = .symbol ∧
        (∀ tombstone, .tombstone tombstone ∈ records → tombstone.deletedId ≠ node.id) ∧
        (∀ repo ∈ repoId, (RepositoryIndex.build records).ownerOf node.id = some repo) ∧
        (node.id = query ∨ node.name = some query) := by
  simp only [← contains_tombstoneMap, ← isOwned_iff]
  rw [matchingSymbolIds]
  generalize RepositoryIndex.build records = index
  generalize tombstoneMap records = tombstones
  induction nodesOf records using List.reverseRecOn with
  | nil => simp
  | append_singleton nodes last ih =>
      simp only [List.foldl_append, List.foldl_cons, List.foldl_nil, List.mem_append,
        List.mem_singleton, or_and_right, exists_or, exists_eq_left, ← ih]
      split
      · next found =>
          rw [Std.ExtTreeSet.mem_insert, byteOrder_eq_iff, or_comm]
          exact or_congr_right ⟨fun same => ⟨same, found⟩, And.left⟩
      · next unfound =>
          refine (or_iff_left ?_).symm
          rintro ⟨-, found⟩
          exact unfound found

/-- A set lists one value when it has no other. -/
theorem toList_eq_singleton_iff {set : StrSet} {value : String} :
    set.toList = [value] ↔ ∀ other, other ∈ set ↔ other = value := by
  rw [← only_iff, ← Std.ExtTreeSet.length_toList, Std.ExtTreeSet.min?_eq_head?_toList]
  constructor
  · intro listed
    rw [listed]
    rfl
  · intro only
    split at only
    · next single =>
        obtain ⟨member, listed⟩ := List.length_eq_one_iff.mp single
        rw [listed] at only ⊢
        rw [Option.some.inj only]
    · cases only

/-- An ID resolves to itself while it is live, in scope and the only match. -/
theorem resolveSymbol_iff (symbol : ∃ node, .node node ∈ records ∧ node.kind = .symbol ∧
    node.id = target) :
    resolveSymbol records target repoId = .ok target ↔
      (∀ tombstone, .tombstone tombstone ∈ records → tombstone.deletedId ≠ target) ∧
      (∀ repo ∈ repoId, (RepositoryIndex.build records).ownerOf target = some repo) ∧
      ∀ node ∈ nodesOf records, node.kind = .symbol → node.name = some target →
        (∀ tombstone, .tombstone tombstone ∈ records → tombstone.deletedId ≠ node.id) →
        (∀ repo ∈ repoId, (RepositoryIndex.build records).ownerOf node.id = some repo) →
          node.id = target := by
  have only : resolveSymbol records target repoId = .ok target ↔
      ∀ other, other ∈ matchingSymbolIds records target repoId ↔ other = target := by
    rw [← toList_eq_singleton_iff, resolveSymbol]
    split
    · next listed => simp [listed]
    · next id listed => simp [listed]
    · next _ many => simpa using many target
  rw [only]
  constructor
  · intro same
    obtain ⟨found, member, rfl, -, kept, owned, -⟩ :=
      mem_matchingSymbolIds.mp ((same target).mpr rfl)
    exact ⟨kept, owned, fun node inside kind name alive inScope => (same node.id).mp
      (mem_matchingSymbolIds.mpr ⟨node, inside, rfl, kind, alive, inScope, Or.inr name⟩)⟩
  · rintro ⟨kept, owned, alone⟩ other
    constructor
    · intro inside
      obtain ⟨node, member, rfl, kind, alive, inScope, same | name⟩ :=
        mem_matchingSymbolIds.mp inside
      · exact same
      · exact alone node member kind name alive inScope
    · rintro rfl
      obtain ⟨node, member, kind, rfl⟩ := symbol
      exact mem_matchingSymbolIds.mpr
        ⟨node, mem_nodesOf.mpr member, rfl, kind, kept, owned, Or.inl rfl⟩

end Symbol

/-- The query for a symbol reports its transitions exactly when what a lifeline relies on holds. -/
theorem reportsTransitions_iff (stableId : List String → String) (records : List GraphRecord)
    (target : String) (repoId : Option String)
    (symbol : ∃ node, .node node ∈ records ∧ node.kind = .symbol ∧ node.id = target)
    (named : CommitsNamed records target)
    (acyclic : ∀ commit, RepositoryCommit records target commit → AcyclicUpTo records commit) :
    ReportsTransitions records target stableId repoId ↔ LifelineSettled records target repoId := by
  have law := lifelineLaw_iff stableId named acyclic
  constructor
  · rintro ⟨resolved, events, answered, holds⟩
    rw [symbolLifeline, resolved] at answered
    obtain rfl : lifelineEvents stableId records target = events := Except.ok.inj answered
    obtain ⟨once, recorded⟩ := law.mp holds
    obtain ⟨kept, owned, alone⟩ := (resolveSymbol_iff symbol).mp resolved
    exact ⟨kept, owned, alone, once, recorded⟩
  · rintro ⟨kept, owned, alone, once, recorded⟩
    have resolved := (resolveSymbol_iff symbol).mpr ⟨kept, owned, alone⟩
    exact ⟨resolved, _, by rw [symbolLifeline, resolved]; rfl, law.mpr ⟨once, recorded⟩⟩

/-- The record of a commit. -/
def commitRecord (commit : String) (parents : List String) (time : String) : NodeRecord :=
  { snapshot ("commit:" ++ commit) commit commit parents time with kind := .commit }

/-- A symbol that one branch changes and the other drops; the merge has it as changed. -/
def mergedBranches : List GraphRecord :=
  [.node (commitRecord "base" [] "2026-01-01T00:00:00Z"),
   .node (commitRecord "left" ["base"] "2026-01-02T00:00:00Z"),
   .node (commitRecord "right" ["base"] "2026-01-03T00:00:00Z"),
   .node (commitRecord "merge" ["left", "right"] "2026-01-04T00:00:00Z"),
   .node (snapshot "parse" "parse_header" "base" [] "2026-01-01T00:00:00Z"),
   .node { snapshot "parse" "parse_header" "left" ["base"] "2026-01-02T00:00:00Z" with
     summary := "fn parse_header(bytes)" },
   .node { snapshot "parse" "parse_header" "merge" ["left", "right"] "2026-01-04T00:00:00Z" with
     summary := "fn parse_header(bytes)" }]

/-- The merged branches have a rank, so no commit is its own ancestor. -/
theorem mergedBranches_acyclic : AcyclicHistory mergedBranches :=
  acyclicHistory_of_rank (fun sha => ["base", "left", "right", "merge"].idxOf sha) (by decide)

/-- The lifeline follows both branches to the merge. -/
theorem mergedBranches_reports_iff :
    (ReportsTransitions mergedBranches "parse" String.join none ↔
      LifelineSettled mergedBranches "parse" none) ∧
    (lifelineEvents String.join mergedBranches "parse").map (fun event =>
        (event.commit, event.eventType)) =
      [("base", .introduced), ("left", .modified), ("right", .removed)] :=
  ⟨reportsTransitions_iff String.join mergedBranches "parse" none
      ⟨snapshot "parse" "parse_header" "base" [] "2026-01-01T00:00:00Z", by decide, rfl, rfl⟩
      (by unfold CommitsNamed; decide)
      fun commit _ => mergedBranches_acyclic.upTo commit,
    by decide⟩

/-- A commit and a symbol in it. -/
def introducingCommit : List GraphRecord :=
  [.node (commitRecord "c1" [] "2026-01-01T00:00:00Z"),
   .node (snapshot "parse" "parse_header" "c1" [] "2026-01-01T00:00:00Z")]

/-- The same graph ingested again. -/
def ingestedTwice : List GraphRecord := introducingCommit ++ introducingCommit

/-- Nor is one in the history that was ingested twice. -/
theorem ingestedTwice_acyclic : AcyclicHistory ingestedTwice :=
  acyclicHistory_of_rank (fun _ => 0) (by decide)

/-- The commit is reported twice. -/
theorem ingestedTwice_not_reports :
    ¬ ∀ stableId records target repoId,
      (∃ node, .node node ∈ records ∧ node.kind = .symbol ∧ node.id = target) →
      CommitsNamed records target →
      (∀ commit, RepositoryCommit records target commit → AcyclicUpTo records commit) →
      ReportsTransitions records target stableId repoId := by
  intro all
  obtain ⟨-, events, answered, law⟩ := all (String.intercalate ":") ingestedTwice "parse" none
    ⟨_, List.mem_cons_of_mem _ List.mem_cons_self, rfl, rfl⟩
    (by unfold CommitsNamed; decide)
    fun commit _ => ingestedTwice_acyclic.upTo commit
  have twice : symbolLifeline (String.intercalate ":") ingestedTwice "parse" none =
      .ok (lifelineEvents (String.intercalate ":") ingestedTwice "parse") := by decide
  obtain rfl := Except.ok.inj (twice.symm.trans answered)
  have once := law.once
  revert once
  decide

end Egregore
