import Egregore.Query.Current
import Egregore.TemporalStatus

/-!
# Displacement in the current state

The links of a history are those of its current state: a retracted or rewritten record asserts
nothing. A status names records by their handles, and these are read from retracted nodes too.
`displacementCollapses_iff` says when that shows.
-/

namespace Egregore

open Base

/-! ## Links -/

/-- The newer ID supersedes the older one, by a record of the current state. -/
def Supersession (records : List GraphRecord) (older newer : String) : Prop :=
  ∃ record ∈ currentRecords records, (older, newer) ∈ supersessions record

/-- The two IDs are in contradiction, by a record of the current state. -/
def Contradiction (records : List GraphRecord) (id other : String) : Prop :=
  ∃ record ∈ currentRecords records, (id, other) ∈ contradictions record

section Links

variable {records : List GraphRecord}

/-- Reading the current records of current records keeps the nodes. -/
theorem node_mem_currentRecords_iff {node : NodeRecord} :
    .node node ∈ currentRecords (currentRecords records) ↔
      .node node ∈ currentRecords records := by
  rw [node_mem_current, deleted_current, lastEvent_writesNode_current, node_mem_current]
  split
  · next deleted => simp [deleted]
  · next live => simp [live]

/-- It keeps the edges. -/
theorem edge_mem_currentRecords_iff {edge : EdgeRecord} :
    .edge edge ∈ currentRecords (currentRecords records) ↔
      .edge edge ∈ currentRecords records := by
  rw [edge_mem_current, deleted_current, lastEvent_writesEdge_current, edge_mem_current]
  split
  · next deleted => simp [deleted]
  · next live => simp [live]

/-- The current state is its own current state. -/
theorem mem_currentRecords_currentRecords {record : GraphRecord} :
    record ∈ currentRecords (currentRecords records) ↔ record ∈ currentRecords records := by
  cases record with
  | node node => exact node_mem_currentRecords_iff
  | edge edge => exact edge_mem_currentRecords_iff
  | tombstone tombstone => simp [tombstone_not_mem_current]

/-- Without temporal records, what asserts a link is what is current. -/
theorem asserts_iff_isCurrent (history : ∀ record ∈ records, record.temporal = none)
    {record : GraphRecord} {index : Nat} (member : record ∈ records)
    (notTombstone : ∀ tombstone, record ≠ .tombstone tombstone) :
    (Liveness.new records).asserts (record, index) =
      (Liveness.new records).isCurrent (record, index) := by
  cases record with
  | node node =>
      have plain : node.temporal = none := history _ member
      simp only [Liveness.asserts, Liveness.isCurrent, plain, Option.isNone_none, Bool.true_and,
        Bool.not_or, Bool.not_not, Bool.and_comm]
  | edge edge =>
      simp only [Liveness.asserts, Liveness.isCurrent, Bool.not_or, Bool.not_not, Bool.and_comm]
  | tombstone tombstone => exact absurd rfl (notTombstone tombstone)

/-- The links that a history asserts are those of its current state. -/
theorem mem_assertedLinks (history : ∀ record ∈ records, record.temporal = none)
    {linksOf : GraphRecord → List (String × String)}
    (silent : ∀ tombstone, linksOf (.tombstone tombstone) = []) {link : String × String} :
    link ∈ (assertingRecords records).flatMap linksOf ↔
      ∃ record ∈ currentRecords records, link ∈ linksOf record := by
  rw [List.mem_flatMap]
  have same : ∀ record index, link ∈ linksOf record → (record, index) ∈ records.zipIdx →
      (Liveness.new records).asserts (record, index) =
        (Liveness.new records).isCurrent (record, index) := by
    intro record index asserted member
    refine asserts_iff_isCurrent history (List.fst_mem_of_mem_zipIdx member) ?_
    rintro tombstone rfl
    simp [silent] at asserted
  constructor
  · rintro ⟨record, member, asserted⟩
    refine ⟨record, ?_, asserted⟩
    simp only [assertingRecords, List.mem_map, List.mem_filter] at member
    obtain ⟨⟨_, index⟩, ⟨inside, asserts⟩, rfl⟩ := member
    simp only [currentRecords, List.mem_map, List.mem_filter]
    exact ⟨_, ⟨inside, same _ _ asserted inside ▸ asserts⟩, rfl⟩
  · rintro ⟨record, member, asserted⟩
    refine ⟨record, ?_, asserted⟩
    simp only [currentRecords, List.mem_map, List.mem_filter] at member
    obtain ⟨⟨_, index⟩, ⟨inside, current⟩, rfl⟩ := member
    simp only [assertingRecords, List.mem_map, List.mem_filter]
    exact ⟨_, ⟨inside, same _ _ asserted inside ▸ current⟩, rfl⟩

/-- Records without temporal fields stay without them. -/
theorem history_current (history : ∀ record ∈ records, record.temporal = none) :
    ∀ record ∈ currentRecords records, record.temporal = none :=
  fun record member => history record (mem_of_mem_current member)

/-- The current records state the same supersessions. -/
theorem supersededBy_current (history : ∀ record ∈ records, record.temporal = none) :
    (TemporalResolver.build (currentRecords records)).supersededBy =
      (TemporalResolver.build records).supersededBy := by
  apply foldl_insertLink_congr
  intro link
  rw [mem_assertedLinks history fun _ => rfl,
    mem_assertedLinks (history_current history) fun _ => rfl]
  simp only [mem_currentRecords_currentRecords]

/-- They state the same contradictions. -/
theorem contradicts_current (history : ∀ record ∈ records, record.temporal = none) :
    (TemporalResolver.build (currentRecords records)).contradicts =
      (TemporalResolver.build records).contradicts := by
  apply foldl_insertLink_congr
  intro link
  rw [mem_assertedLinks history fun _ => rfl,
    mem_assertedLinks (history_current history) fun _ => rfl]
  simp only [mem_currentRecords_currentRecords]

/-- The superseders of a record are those the records state. -/
theorem mem_superseders (history : ∀ record ∈ records, record.temporal = none)
    {older newer : String} :
    newer ∈ (TemporalResolver.build records).superseders older ↔
      Supersession records older newer := by
  rw [TemporalResolver.superseders, Std.ExtTreeSet.mem_toList]
  exact mem_foldl_insertLink.trans (mem_assertedLinks history fun _ => rfl)

end Links

/-! ## Handles -/

section Handles

variable {records : List GraphRecord} {id : String}

/-- The node kept under an ID is its last version. -/
theorem recordsById_build :
    (TemporalResolver.build records).recordsById[id]? =
      (lastEvent (GraphRecord.writesNode id) records).bind fun record =>
        (nodeEntry record).map Prod.snd := by
  show (records.foldl (insertEntry nodeEntry) ∅)[id]? = _
  rw [lastEvent]
  induction records using List.reverseRecOn with
  | nil => simp
  | append_singleton records last ih =>
      rw [List.foldl_append, List.foldl_cons, List.foldl_nil, insertEntry, List.filter_append]
      cases last with
      | node node =>
          have entry : nodeEntry (.node node) = some (node.id, node) := rfl
          simp only [entry, getElem?_insert_eq]
          by_cases same : node.id = id
          · simp [same, GraphRecord.writesNode, entry]
          · simpa [same, GraphRecord.writesNode] using ih
      | edge edge =>
          have entry : nodeEntry (.edge edge) = none := rfl
          simpa [entry, GraphRecord.writesNode] using ih
      | tombstone tombstone =>
          have entry : nodeEntry (.tombstone tombstone) = none := rfl
          simpa [entry, GraphRecord.writesNode] using ih

/-- In the current state a retracted node has no handle. -/
theorem getHandle_current :
    (TemporalResolver.build (currentRecords records)).getHandle id =
      if (Liveness.new records).deleted id then ""
      else (TemporalResolver.build records).getHandle id := by
  rw [TemporalResolver.getHandle, TemporalResolver.getHandle, recordsById_build,
    recordsById_build, lastEvent_writesNode_current]
  cases (Liveness.new records).deleted id <;> rfl

end Handles

/-! ## Heads -/

section Heads

variable {resolver : TemporalResolver} {id : String}

/-- No key of the resolver has an empty set. -/
def TemporalResolver.NoEmptySet (resolver : TemporalResolver) : Prop :=
  ∀ (id : String) (targets : StrSet),
    resolver.supersededBy[id]? = some targets ∨ resolver.contradicts[id]? = some targets →
      targets ≠ ∅

/-- No entry of the resolver is empty. -/
theorem noEmptySet_build (records : List GraphRecord) :
    (TemporalResolver.build records).NoEmptySet := by
  rintro id targets (found | found)
  · exact foldl_insertLink_ne_empty found
  · exact foldl_insertLink_ne_empty found

/-- A record without an entry has no superseder. -/
theorem superseders_eq_nil_iff (noEmptySet : resolver.NoEmptySet) :
    resolver.superseders id = [] ↔ resolver.supersededBy.contains id = false := by
  rw [TemporalResolver.superseders, Std.ExtTreeSet.toList_eq_nil_iff,
    Std.ExtTreeMap.contains_eq_isSome_getElem?]
  cases found : resolver.supersededBy[id]? with
  | none => simp
  | some targets => simpa using noEmptySet id targets (Or.inl found)

/-- The outcome of the search for heads: a cycle that can be reached, or the superseders that
nothing supersedes. -/
def HeadsDescribe (resolver : TemporalResolver) (id : String) :
    Except (List String) (Option StrSet) → Prop
  | .error _ => ∃ step, Reaches resolver.superseders id step ∧ OnCycle resolver.superseders step
  | .ok none => resolver.superseders id = []
  | .ok (some heads) => resolver.superseders id ≠ [] ∧
      (∀ step, Reaches resolver.superseders id step → ¬ OnCycle resolver.superseders step) ∧
      ∀ head, head ∈ heads ↔ Reaches resolver.superseders id head ∧ resolver.superseders head = []

/-- The search for heads ends with the outcome that the resolver describes. -/
theorem resolveSupersessionHeads_spec (noEmptySet : resolver.NoEmptySet) (id : String) :
    HeadsDescribe resolver id (resolver.resolveSupersessionHeads id) := by
  rw [TemporalResolver.resolveSupersessionHeads]
  split
  next superseded =>
    have inside : resolver.superseders id ≠ [] := by
      rw [Ne, superseders_eq_nil_iff noEmptySet, superseded]
      simp
    have keyed : ∀ node, resolver.superseders node ≠ [] →
        node ∈ resolver.supersededBy.keys := by
      intro node some_
      rw [Ne, superseders_eq_nil_iff noEmptySet, Bool.not_eq_false] at some_
      exact Std.ExtTreeMap.mem_keys.mpr some_
    have start : OnPath resolver.superseders resolver.supersededBy.keys [] id :=
      ⟨by simp, by simp, by simp⟩
    have described := pathEnds_spec keyed (resolver.supersededBy.size + 1) start
      (by rw [Std.ExtTreeMap.length_keys]; simp)
    rw [List.nil_append] at described
    cases found : pathEnds resolver.superseders (resolver.supersededBy.size + 1) [id] id with
    | error cycle =>
        rw [found] at described
        exact described
    | ok ends =>
        rw [found] at described
        obtain ⟨some_, free, mem⟩ := described
        have heads : ∀ head, head ∈ (Std.ExtTreeSet.ofList ends byteOrder).erase id ↔
            Reaches resolver.superseders id head ∧ resolver.superseders head = [] := by
          intro head
          rw [Std.ExtTreeSet.mem_erase, Std.ExtTreeSet.mem_ofList, List.contains_iff_mem, mem]
          simp only [Ne, byteOrder_eq_iff, and_iff_right_iff_imp]
          rintro ⟨-, leaf⟩ rfl
          exact inside leaf
        have nonempty : ((Std.ExtTreeSet.ofList ends byteOrder).erase id).isEmpty = false := by
          obtain ⟨end_, member⟩ := List.exists_mem_of_ne_nil _ some_
          rw [Std.ExtTreeSet.isEmpty_eq_false_iff]
          intro empty
          have there := (heads end_).mpr ((mem end_).mp member)
          rw [empty] at there
          exact Std.ExtTreeSet.not_mem_empty there
        simp only [bind, Except.bind, pure, Except.pure, nonempty, Bool.false_eq_true, if_false]
        exact ⟨inside, free, heads⟩
  next current =>
    exact (superseders_eq_nil_iff noEmptySet).mpr (Bool.not_eq_true _ ▸ current)

end Heads

/-! ## Statuses -/

/-- The IDs that the status of an ID refers to. -/
def TemporalResolver.citedBy (resolver : TemporalResolver) (id : String) : List String :=
  match resolver.resolveSupersessionHeads id with
  | .error _ => []
  | .ok (some heads) => heads.toList.filter (· ≠ id)
  | .ok none => (resolver.contradicts[id]?.getD ∅).toList

/-- A status refers to `cited`: as a head of an ID from which no cycle can be reached, or as a
contradiction of an ID that nothing supersedes. -/
inductive RefersTo (records : List GraphRecord) : String → String → Prop
  | head {id cited : String} (superseded : ∃ newer, Supersession records id newer)
      (acyclic : ∀ step, Relation.ReflTransGen (Supersession records) id step →
        ¬ Relation.TransGen (Supersession records) step step)
      (reached : Relation.ReflTransGen (Supersession records) id cited)
      (last : ∀ newer, ¬ Supersession records cited newer) : RefersTo records id cited
  | contradiction {id cited : String} (unsuperseded : ∀ newer, ¬ Supersession records id newer)
      (disputed : Contradiction records id cited) : RefersTo records id cited

section Statuses

variable {records : List GraphRecord} {id cited : String}

/-- The superseders are the stated supersessions. -/
theorem superseders_build (history : ∀ record ∈ records, record.temporal = none) :
    (fun node successor => successor ∈ (TemporalResolver.build records).superseders node) =
      Supersession records := by
  funext older newer
  exact propext (mem_superseders history)

/-- A head is a record that nothing supersedes. -/
theorem superseders_build_eq_nil_iff (history : ∀ record ∈ records, record.temporal = none) :
    (TemporalResolver.build records).superseders id = [] ↔
      ∀ newer, ¬ Supersession records id newer := by
  rw [List.eq_nil_iff_forall_not_mem]
  simp only [mem_superseders history]

/-- What a status refers to, by the links of the current state. -/
theorem mem_citedBy_build (history : ∀ record ∈ records, record.temporal = none) :
    cited ∈ (TemporalResolver.build records).citedBy id ↔ RefersTo records id cited := by
  have spec := resolveSupersessionHeads_spec (noEmptySet_build records) id
  rw [TemporalResolver.citedBy]
  cases found : (TemporalResolver.build records).resolveSupersessionHeads id with
  | error cycle =>
      rw [found] at spec
      obtain ⟨step, reached, onCycle⟩ := spec
      rw [Reaches, superseders_build history] at reached
      rw [OnCycle, superseders_build history] at onCycle
      simp only [List.not_mem_nil, false_iff]
      rintro (⟨-, acyclic, -, -⟩ | ⟨unsuperseded, -⟩)
      · exact acyclic step reached onCycle
      · rcases Relation.ReflTransGen.cases_head reached with rfl | ⟨newer, link, -⟩
        · obtain ⟨newer, link, -⟩ := Relation.TransGen.head'_iff.mp onCycle
          exact unsuperseded newer link
        · exact unsuperseded newer link
  | ok outcome =>
      rw [found] at spec
      cases outcome with
      | none =>
          have unsuperseded := (superseders_build_eq_nil_iff history).mp spec
          simp only [Std.ExtTreeSet.mem_toList]
          have disputed : cited ∈ ((TemporalResolver.build records).contradicts[id]?).getD ∅ ↔
              Contradiction records id cited :=
            mem_foldl_insertLink.trans (mem_assertedLinks history fun _ => rfl)
          rw [disputed]
          constructor
          · exact .contradiction unsuperseded
          · rintro (⟨⟨newer, link⟩, -, -, -⟩ | ⟨-, disputed⟩)
            · exact absurd link (unsuperseded newer)
            · exact disputed
      | some heads =>
          obtain ⟨some_, free, mem⟩ := spec
          have superseded : ∃ newer, Supersession records id newer := by
            by_contra none_
            exact some_ ((superseders_build_eq_nil_iff history).mpr (not_exists.mp none_))
          simp only [Reaches, OnCycle, superseders_build history,
            superseders_build_eq_nil_iff history] at free mem
          simp only [List.mem_filter, Std.ExtTreeSet.mem_toList, mem, decide_eq_true_eq]
          constructor
          · rintro ⟨⟨reached, last⟩, -⟩
            exact .head superseded free reached last
          · rintro (⟨-, -, reached, last⟩ | ⟨unsuperseded, -⟩)
            · refine ⟨⟨reached, last⟩, ?_⟩
              rintro rfl
              obtain ⟨newer, link⟩ := superseded
              exact last newer link
            · obtain ⟨newer, link⟩ := superseded
              exact absurd link (unsuperseded newer)

/-- Two resolvers with the same links give an ID the same status exactly when they agree on the
handles of what it refers to. -/
theorem resolveStatus_eq_iff {resolver other : TemporalResolver}
    (noEmptySet : resolver.NoEmptySet)
    (sameSupersededBy : other.supersededBy = resolver.supersededBy)
    (sameContradicts : other.contradicts = resolver.contradicts) :
    other.resolveStatus id = resolver.resolveStatus id ↔
      ∀ cited ∈ resolver.citedBy id, other.getHandle cited = resolver.getHandle cited := by
  have sameHeads : other.resolveSupersessionHeads id = resolver.resolveSupersessionHeads id := by
    have sameSuperseders : other.superseders = resolver.superseders := by
      funext older
      rw [TemporalResolver.superseders, TemporalResolver.superseders, sameSupersededBy]
    rw [TemporalResolver.resolveSupersessionHeads, TemporalResolver.resolveSupersessionHeads,
      sameSuperseders, sameSupersededBy]
  have references : ∀ ids : List String, ids.map other.reference = ids.map resolver.reference ↔
      ∀ cited ∈ ids, other.getHandle cited = resolver.getHandle cited := by
    intro ids
    rw [List.map_inj_left]
    simp only [TemporalResolver.reference, TemporalReference.mk.injEq, true_and]
  rw [TemporalResolver.resolveStatus, TemporalResolver.resolveStatus, TemporalResolver.citedBy,
    sameHeads, sameContradicts]
  cases resolver.resolveSupersessionHeads id with
  | error cycle => simp
  | ok outcome =>
      cases outcome with
      | some heads => simp only [Prod.mk.injEq, true_and, and_true, references]
      | none =>
          cases found : resolver.contradicts[id]? with
          | none => simp
          | some ids =>
              have some_ := noEmptySet id ids (Or.inr found)
              have kept : (some ids).filter (fun ids => !ids.isEmpty) = some ids := by
                simpa [Option.filter] using some_
              simp only [kept, Prod.mk.injEq, true_and, references, Option.getD_some]

/-- The displacement of a history is that of its current state. -/
structure DisplacementCollapses (records : List GraphRecord) : Prop where
  supersededBy : (TemporalResolver.build (currentRecords records)).supersededBy =
    (TemporalResolver.build records).supersededBy
  contradicts : (TemporalResolver.build (currentRecords records)).contradicts =
    (TemporalResolver.build records).contradicts
  status : ∀ id, (TemporalResolver.build (currentRecords records)).resolveStatus id =
    (TemporalResolver.build records).resolveStatus id

/-- Both readings agree exactly when no retracted record that is cited has a node with a handle. -/
theorem displacementCollapses_iff (history : ∀ record ∈ records, record.temporal = none) :
    DisplacementCollapses records ↔
      ∀ id cited, RefersTo records id cited → (Liveness.new records).deleted cited = true →
        ∀ node, lastEvent (GraphRecord.writesNode cited) records = some (.node node) →
          node.handle = "" := by
  have statuses : ∀ id, (TemporalResolver.build (currentRecords records)).resolveStatus id =
      (TemporalResolver.build records).resolveStatus id ↔
        ∀ cited, RefersTo records id cited → (Liveness.new records).deleted cited = true →
          (TemporalResolver.build records).getHandle cited = "" := by
    intro id
    rw [resolveStatus_eq_iff (noEmptySet_build records) (supersededBy_current history)
      (contradicts_current history)]
    simp only [mem_citedBy_build history, getHandle_current]
    refine forall₂_congr fun cited _ => ?_
    cases (Liveness.new records).deleted cited with
    | true =>
        simp only [if_true, forall_const]
        exact eq_comm
    | false => simp
  have handles : ∀ cited, (TemporalResolver.build records).getHandle cited = "" ↔
      ∀ node, lastEvent (GraphRecord.writesNode cited) records = some (.node node) →
        node.handle = "" := by
    intro cited
    rw [TemporalResolver.getHandle, recordsById_build]
    cases found : lastEvent (GraphRecord.writesNode cited) records with
    | none => simp
    | some record =>
        obtain ⟨-, written⟩ := mem_of_lastEvent found
        cases record with
        | node node => simp [nodeEntry]
        | edge edge => simp [GraphRecord.writesNode] at written
        | tombstone tombstone => simp [GraphRecord.writesNode] at written
  simp only [← handles, ← statuses]
  exact ⟨DisplacementCollapses.status,
    fun same => ⟨supersededBy_current history, contradicts_current history, same⟩⟩

end Statuses

/-- A claim that a later one supersedes, where the later one was then retracted. -/
def retractedHead : List GraphRecord := [
  .node {
    id := "agent_memory:v1:first"
    kind := .observation
    schemaVersion := 1
    rest := [("superseded_by", "agent_memory:v1:second")] },
  .node {
    id := "agent_memory:v1:second"
    kind := .observation
    schemaVersion := 1
    rest := [("agent_id", "ada")] },
  .tombstone {
    id := "agent_memory:v1:retraction"
    schemaVersion := 1
    deletedId := "agent_memory:v1:second" }]

/-- The equivalence at this history. -/
theorem retractedHead_collapses_iff :
    DisplacementCollapses retractedHead ↔
      ∀ id cited, RefersTo retractedHead id cited →
        (Liveness.new retractedHead).deleted cited = true →
          ∀ node, lastEvent (GraphRecord.writesNode cited) retractedHead = some (.node node) →
            node.handle = "" :=
  displacementCollapses_iff (by decide)

/-- The status of the first claim names the second, with its handle only over the history. -/
theorem retractedHead_not_collapses : ¬ DisplacementCollapses retractedHead := by
  intro collapses
  have status := collapses.status "agent_memory:v1:first"
  revert status
  decide

end Egregore
