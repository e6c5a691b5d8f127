import Egregore.Query.BeliefTimeline
import Egregore.Query.EvidencePathSpec
import Egregore.Query.Stated
import Egregore.TemporalStatusSpec

/-!
# Belief timelines reflect what the slice states

The entries of a timeline are the live beliefs that cite its target, and their statuses follow the
supersessions and contradictions that the slice states. A snapshot of a node's history states its
links as long as the node is live; without snapshots the slice states its current state.
`beliefTimeline_reflects` states the timeline over these stated records, which answer every part
of the query as the slice does.
-/

namespace Egregore

open Base

section Statement

variable (records : List GraphRecord)

/-- A live agent-authored belief, in its last version. -/
structure LiveBelief (id : String) (node : NodeRecord) : Prop where
  live : (Liveness.new records).deleted id = false
  latest : lastEvent (GraphRecord.writesNode id) records = some (.node node)
  kind : node.kind ∈ observationClass
  authored : (node.field "agent_id").isSome = true

/-- An edge from the node to the target is the last version of its ID, and live. -/
def CitedByEdge (id target : String) : Prop :=
  ∃ edge, (Liveness.new records).deleted edge.id = false ∧
    lastEvent (GraphRecord.writesEdge edge.id) records = some (.edge edge) ∧
    edge.source = id ∧ edge.target = target

/-- A live belief whose last version cites the target, by a link or an edge. -/
def CitingBelief (target id : String) : Prop :=
  ∃ node, LiveBelief records id node ∧
    ((∃ link ∈ node.evidenceLinks.getD [], link.targetRecordId = some target) ∨
      CitedByEdge records id target)

variable (state : List GraphRecord)

/-- A live belief supersedes an ID, by a record of the state. -/
def SupersedingBelief (id newer : String) : Prop :=
  (∃ node, LiveBelief records newer node) ∧ ∃ record ∈ state, (id, newer) ∈ supersessions record

/-- A live belief contradicts an ID, by a record of the state. -/
def ContradictingBelief (id other : String) : Prop :=
  (∃ node, LiveBelief records other node) ∧ ∃ record ∈ state, (id, other) ∈ contradictions record

/-- The status of an entry, and its forward record. -/
inductive BeliefEntry.Reflects (entry : BeliefEntry) : Prop where
  | superseded (newer : String) (status : entry.status = .superseded)
      (forward : entry.forwardRecordId = some newer)
      (supersedes : SupersedingBelief records state entry.recordId newer)
  | contradicted (other : String) (status : entry.status = .contradicted)
      (forward : entry.forwardRecordId = some other)
      (unsuperseded : ¬ ∃ newer, SupersedingBelief records state entry.recordId newer)
      (contradicts : ContradictingBelief records state entry.recordId other)
  | current (status : entry.status = .current) (forward : entry.forwardRecordId = none)
      (unsuperseded : ¬ ∃ newer, SupersedingBelief records state entry.recordId newer)
      (uncontradicted : ¬ ∃ other, ContradictingBelief records state entry.recordId other)

/-- The forward supersession pointers of a timeline. -/
def BeliefTimeline.Pointer (timeline : BeliefTimeline) (id newer : String) : Prop :=
  ∃ entry ∈ timeline.entries, entry.recordId = id ∧ entry.status = .superseded ∧
    entry.forwardRecordId = some newer

/-- The IDs of the `supersession_cycle` diagnostics. -/
def BeliefTimeline.cycleIds (timeline : BeliefTimeline) : List String :=
  (timeline.diagnostics.filter fun diagnostic => diagnostic.code = "supersession_cycle").flatMap
    BeliefDiagnostic.recordIds

/-- The timeline lists the citing beliefs, each once, their statuses reflect the state, the
diagnosed cycles are those of the pointers, and the state has the same timeline. -/
structure TimelineReflects (chrono : Chrono) (target : ResolvedBeliefTarget) : Prop where
  entries : ∀ id, id ∈ (beliefTimeline records target chrono).entries.map BeliefEntry.recordId ↔
    CitingBelief records target.recordId id
  once : ((beliefTimeline records target chrono).entries.map BeliefEntry.recordId).Nodup
  statuses : ∀ entry ∈ (beliefTimeline records target chrono).entries,
    entry.Reflects records state
  cycles : ∀ id, id ∈ (beliefTimeline records target chrono).cycleIds ↔
    Relation.TransGen (beliefTimeline records target chrono).Pointer id id
  cyclesOnce : (beliefTimeline records target chrono).cycleIds.Nodup
  collapse : beliefTimeline state target chrono = beliefTimeline records target chrono

end Statement

section Lookups

variable {records : List GraphRecord} {id : String} {node : NodeRecord}

/-- The map holds the latest version of each node that is not deleted. -/
theorem getElem?_latestNodes : (latestNodes records)[id]? = some node ↔
    (Liveness.new records).deleted id = false ∧
      lastEvent (GraphRecord.writesNode id) records = some (.node node) :=
  getElem?_liveNodesById

/-- A belief is an observation that names its agent. -/
theorem isBeliefRecord_iff : isBeliefRecord node = true ↔
    node.kind ∈ observationClass ∧ (node.field "agent_id").isSome = true := by
  rw [isBeliefRecord, Bool.and_eq_true, List.contains_iff_mem]

/-- The live beliefs are those of the map. -/
theorem liveBelief_iff : LiveBelief records id node ↔
    (latestNodes records)[id]? = some node ∧ isBeliefRecord node = true := by
  rw [getElem?_latestNodes, isBeliefRecord_iff]
  exact ⟨fun belief => ⟨⟨belief.live, belief.latest⟩, belief.kind, belief.authored⟩,
    fun ⟨⟨live, latest⟩, kind, authored⟩ => ⟨live, latest, kind, authored⟩⟩

/-- A live belief is listed under its own ID. -/
theorem LiveBelief.id_eq (belief : LiveBelief records id node) : node.id = id :=
  of_decide_eq_true (mem_of_lastEvent belief.latest).2

/-- A name resolves to the live belief with that ID. -/
theorem liveBeliefKey_eq_some_iff {name : String} :
    liveBeliefKey (latestNodes records) name = some id ↔
      name = id ∧ ∃ node, LiveBelief records id node := by
  simp only [liveBeliefKey, Option.bind_eq_some_iff, Option.ite_none_right_eq_some,
    Option.some.injEq, liveBelief_iff]
  constructor
  · rintro ⟨node, found, belief, rfl⟩
    exact ⟨rfl, node, found, belief⟩
  · rintro ⟨rfl, node, found, belief⟩
    exact ⟨node, found, belief, rfl⟩

/-- Cited by an edge: a live edge leads from the belief to the target. -/
theorem mem_edgeCited {target : ResolvedBeliefTarget} :
    id ∈ edgeCited records target ↔ CitedByEdge records id target.recordId := by
  rw [edgeCited, mem_foldl_insert, List.mem_filterMap]
  simp only [Std.ExtTreeSet.not_mem_empty, false_or, Prod.exists, List.mk_mem_zipIdx_iff_getElem?]
  constructor
  · rintro ⟨record, index, found, kept⟩
    cases record with
    | node record => cases kept
    | tombstone record => cases kept
    | edge edge =>
        simp only [Option.ite_none_right_eq_some, Option.some.injEq,
          Liveness.isLatestEdgeVersion_new, decide_eq_true_eq] at kept
        obtain ⟨⟨target, live, latest⟩, source⟩ := kept
        exact ⟨edge, live, lastEvent_eq_some_iff.mpr ⟨index, latest, found⟩, source, target⟩
  · rintro ⟨edge, live, latest, source, target⟩
    obtain ⟨index, isLast, found⟩ := lastEvent_eq_some_iff.mp latest
    refine ⟨.edge edge, index, found, ?_⟩
    simp [target, live, source, Liveness.isLatestEdgeVersion_new, isLast]

/-- The members cite the target by an evidence link or by an edge. -/
theorem mem_beliefMembers {target : ResolvedBeliefTarget} :
    node ∈ beliefMembers records target ↔ LiveBelief records node.id node ∧
      ((∃ link ∈ node.evidenceLinks.getD [], link.targetRecordId = some target.recordId) ∨
        CitedByEdge records node.id target.recordId) := by
  have listed : node ∈ (latestNodes records).toList.map Prod.snd ↔
      (latestNodes records)[node.id]? = some node := by
    simp only [List.mem_map, Prod.exists, exists_eq_right,
      Std.ExtTreeMap.mem_toList_iff_getElem?_eq_some]
    constructor
    · rintro ⟨id, found⟩
      have named : node.id = id :=
        of_decide_eq_true (mem_of_lastEvent (getElem?_latestNodes.mp found).2).2
      rwa [named]
    · exact fun found => ⟨_, found⟩
  rw [beliefMembers, List.mem_filter, Bool.and_eq_true, Bool.or_eq_true, List.any_eq_true,
    ← Std.ExtTreeSet.mem_iff_contains, mem_edgeCited, ← and_assoc, liveBelief_iff, listed]
  simp only [decide_eq_true_eq]

/-- So the members are the citing beliefs. -/
theorem exists_beliefMember {target : ResolvedBeliefTarget} :
    (∃ member ∈ beliefMembers records target, member.id = id) ↔
      CitingBelief records target.recordId id := by
  constructor
  · rintro ⟨member, isMember, rfl⟩
    exact ⟨member, mem_beliefMembers.mp isMember⟩
  · rintro ⟨node, belief, cites⟩
    obtain rfl := belief.id_eq
    exact ⟨node, mem_beliefMembers.mpr ⟨belief, cites⟩, rfl⟩

/-- Each citing belief is a member once. -/
theorem nodup_beliefMembers {target : ResolvedBeliefTarget} :
    ((beliefMembers records target).map NodeRecord.id).Nodup := by
  have keys : ((latestNodes records).toList.map Prod.snd).map NodeRecord.id =
      (latestNodes records).toList.map Prod.fst := by
    rw [List.map_map]
    refine List.map_congr_left fun entry member => ?_
    have found := Std.ExtTreeMap.mem_toList_iff_getElem?_eq_some.mp member
    exact of_decide_eq_true (mem_of_lastEvent (getElem?_latestNodes.mp found).2).2
  have distinct : ((latestNodes records).toList.map Prod.snd).map NodeRecord.id |>.Nodup := by
    rw [keys, List.Nodup, List.pairwise_map]
    refine Std.ExtTreeMap.ordered_keys_toList.imp fun less same => ?_
    rw [same, (Std.ReflCmp.compare_self : byteOrder _ _ = .eq)] at less
    cases less
  exact distinct.sublist (List.filter_sublist.map _)

end Lookups

/-! ## Pointers -/

section Pointers

variable {records : List GraphRecord} {id : String} {target : ResolvedBeliefTarget}

/-- The resolver takes the supersessions from every stated record. -/
theorem mem_supersededBy {newer : String} :
    newer ∈ (TemporalResolver.build records).supersededBy.getD id ∅ ↔
      ∃ record ∈ statedRecords records, (id, newer) ∈ supersessions record := by
  rw [Std.ExtTreeMap.getD_eq_getD_getElem?]
  exact mem_foldl_insertLink.trans (mem_assertedLinks_stated fun _ => rfl)

/-- It takes the contradictions from every stated record. -/
theorem mem_contradicts {other : String} :
    other ∈ (TemporalResolver.build records).contradicts.getD id ∅ ↔
      ∃ record ∈ statedRecords records, (id, other) ∈ contradictions record := by
  rw [Std.ExtTreeMap.getD_eq_getD_getElem?]
  exact mem_foldl_insertLink.trans (mem_assertedLinks_stated fun _ => rfl)

/-- The first live belief of a set of IDs. -/
def firstBelief (latest : StrMap NodeRecord) (ids : StrSet) : Option String :=
  ids.toList.findSome? (liveBeliefKey latest)

/-- The first belief of a set is a live belief in it. -/
theorem firstBelief_some {ids : StrSet} {name : String}
    (first : firstBelief (latestNodes records) ids = some name) :
    name ∈ ids ∧ ∃ node, LiveBelief records name node := by
  obtain ⟨member, inside, key⟩ := List.exists_of_findSome?_eq_some first
  obtain ⟨rfl, belief⟩ := liveBeliefKey_eq_some_iff.mp key
  exact ⟨Std.ExtTreeSet.mem_toList.mp inside, belief⟩

/-- Without one no name of the set is a live belief. -/
theorem firstBelief_none {ids : StrSet} (none : firstBelief (latestNodes records) ids = none) :
    ∀ name ∈ ids, ¬ ∃ node, LiveBelief records name node := by
  intro name member belief
  have absent := List.findSome?_eq_none_iff.mp none name (Std.ExtTreeSet.mem_toList.mpr member)
  rw [liveBeliefKey_eq_some_iff.mpr ⟨rfl, belief⟩] at absent
  cases absent

/-- A supersession comes before a contradiction. -/
theorem forwardPointer_eq :
    forwardPointer records id =
      match firstBelief (latestNodes records)
          ((TemporalResolver.build records).supersededBy.getD id ∅) with
      | some next => some (next, .supersedes)
      | none => (firstBelief (latestNodes records)
          ((TemporalResolver.build records).contradicts.getD id ∅)).map
            fun other => (other, .contradicts) := by
  simp only [forwardPointer, TemporalResolver.immediateSuperseders,
    TemporalResolver.contradictingRecords, List.findSome?_map]
  rfl

/-- What the pointer of an ID says. -/
theorem forwardPointer_cases (records : List GraphRecord) (id : String) :
    (∃ newer, forwardPointer records id = some (newer, .supersedes) ∧
      SupersedingBelief records (statedRecords records) id newer) ∨
    (∃ other, forwardPointer records id = some (other, .contradicts) ∧
      (¬ ∃ newer, SupersedingBelief records (statedRecords records) id newer) ∧
      ContradictingBelief records (statedRecords records) id other) ∨
    (forwardPointer records id = none ∧
      (¬ ∃ newer, SupersedingBelief records (statedRecords records) id newer) ∧
      ¬ ∃ other, ContradictingBelief records (statedRecords records) id other) := by
  rw [forwardPointer_eq]
  cases superseder : firstBelief (latestNodes records)
      ((TemporalResolver.build records).supersededBy.getD id ∅) with
  | some newer =>
      obtain ⟨member, belief⟩ := firstBelief_some superseder
      exact .inl ⟨newer, rfl, belief, mem_supersededBy.mp member⟩
  | none =>
      have unsuperseded : ¬ ∃ newer, SupersedingBelief records (statedRecords records) id newer :=
        fun ⟨newer, belief, states⟩ =>
          firstBelief_none superseder newer (mem_supersededBy.mpr states) belief
      cases disputant : firstBelief (latestNodes records)
          ((TemporalResolver.build records).contradicts.getD id ∅) with
      | some other =>
          obtain ⟨member, belief⟩ := firstBelief_some disputant
          exact .inr (.inl ⟨other, rfl, unsuperseded, belief, mem_contradicts.mp member⟩)
      | none =>
          exact .inr (.inr ⟨rfl, unsuperseded, fun ⟨other, belief, states⟩ =>
            firstBelief_none disputant other (mem_contradicts.mpr states) belief⟩)

/-- A pointer leads to a live belief. -/
theorem live_of_forwardPointer {pointer : String × BeliefRelation}
    (found : forwardPointer records id = some pointer) :
    (Liveness.new records).deleted pointer.1 = false := by
  rcases forwardPointer_cases records id with
    ⟨newer, points, ⟨node, belief⟩, -⟩ | ⟨other, points, -, ⟨node, belief⟩, -⟩ | ⟨none, -⟩
  · rw [points, Option.some.injEq] at found
    exact found ▸ belief.live
  · rw [points, Option.some.injEq] at found
    exact found ▸ belief.live
  · rw [none] at found
    cases found

/-- Pointers start at members only. -/
theorem getElem?_forwardPointers {pointer : String × BeliefRelation} :
    (forwardPointers records target)[id]? = some pointer ↔
      (∃ member ∈ beliefMembers records target, member.id = id) ∧
        forwardPointer records id = some pointer := by
  rw [forwardPointers, getElem?_foldl_insertEntry, Std.ExtTreeMap.getElem?_empty, Option.or_none]
  have listed : ∀ pair : String × String × BeliefRelation,
      pair ∈ (((beliefMembers records target).filterMap fun member =>
        (forwardPointer records member.id).map fun pointer => (member.id, pointer)).filter
          fun pair => pair.1 = id) ↔
        (∃ member ∈ beliefMembers records target, member.id = id) ∧ pair.1 = id ∧
          forwardPointer records id = some pair.2 := by
    rintro ⟨name, pointer⟩
    simp only [List.mem_filter, List.mem_filterMap, Option.map_eq_some_iff, Prod.mk.injEq,
      decide_eq_true_eq]
    constructor
    · rintro ⟨⟨member, isMember, _, found, rfl, rfl⟩, rfl⟩
      exact ⟨⟨member, isMember, rfl⟩, rfl, found⟩
    · rintro ⟨⟨member, isMember, rfl⟩, rfl, found⟩
      exact ⟨⟨member, isMember, pointer, found, rfl, rfl⟩, rfl⟩
  rw [Option.map_eq_some_iff]
  constructor
  · rintro ⟨pair, last, rfl⟩
    obtain ⟨isMember, -, found⟩ := (listed pair).mp (List.mem_of_getLast? last)
    exact ⟨isMember, found⟩
  · rintro ⟨isMember, found⟩
    have member := (listed (id, pointer)).mpr ⟨isMember, rfl, found⟩
    have last := List.getLast?_eq_some_getLast (List.ne_nil_of_mem member)
    obtain ⟨-, -, found'⟩ := (listed _).mp (List.mem_of_getLast? last)
    rw [found, Option.some.injEq] at found'
    exact ⟨_, last, found'.symm⟩

/-- What an entry says, by the pointer of its ID. -/
theorem reflects_beliefEntry {chrono : Chrono} {resolver : TemporalResolver} {node : NodeRecord}
    (isMember : node ∈ beliefMembers records target) :
    (beliefEntry target chrono resolver (forwardPointers records target) node).Reflects records
      (statedRecords records) := by
  have listed : (forwardPointers records target)[node.id]? = forwardPointer records node.id := by
    ext pointer
    rw [getElem?_forwardPointers]
    exact and_iff_right ⟨node, isMember, rfl⟩
  rcases forwardPointer_cases records node.id with
    ⟨newer, pointer, supersedes⟩ | ⟨other, pointer, unsuperseded, contradicts⟩ |
      ⟨pointer, unsuperseded, uncontradicted⟩
  · rw [pointer] at listed
    exact .superseded newer (by simp [beliefEntry, listed]) (by simp [beliefEntry, listed])
      supersedes
  · rw [pointer] at listed
    exact .contradicted other (by simp [beliefEntry, listed]) (by simp [beliefEntry, listed])
      unsuperseded contradicts
  · rw [pointer] at listed
    exact .current (by simp [beliefEntry, listed]) (by simp [beliefEntry, listed]) unsuperseded
      uncontradicted

/-- The walk for cycles follows the supersessions among them. -/
theorem supersessionPointer_eq_some_iff {newer : String} :
    supersessionPointer (forwardPointers records target) id = some newer ↔
      (forwardPointers records target)[id]? = some (newer, .supersedes) := by
  rw [supersessionPointer]
  split
  next next found => simp [found]
  next none => simpa using none newer

/-- Every member has its entry, and there are no others. -/
theorem mem_entries {chrono : Chrono} {entry : BeliefEntry} :
    entry ∈ (beliefTimeline records target chrono).entries ↔
      ∃ node ∈ beliefMembers records target, entry = beliefEntry target chrono
        (TemporalResolver.build records) (forwardPointers records target) node := by
  simp only [beliefTimeline, List.mem_map, List.mem_insertionSort, eq_comm]

/-- The pointers of a timeline are those of the map. -/
theorem pointer_iff {chrono : Chrono} {newer : String} :
    (beliefTimeline records target chrono).Pointer id newer ↔
      Follows (supersessionPointer (forwardPointers records target)) id newer := by
  rw [Follows, supersessionPointer_eq_some_iff, BeliefTimeline.Pointer]
  simp only [mem_entries]
  constructor
  · rintro ⟨_, ⟨node, isMember, rfl⟩, rfl, status, forward⟩
    simp only [beliefEntry] at status forward
    cases found : (forwardPointers records target)[node.id]? with
    | none => simp [found] at status
    | some pointer =>
        obtain ⟨next, relation⟩ := pointer
        cases relation with
        | contradicts => simp [found] at status
        | supersedes =>
            obtain rfl : next = newer := by simpa [found] using forward
            exact found
  · intro found
    obtain ⟨⟨node, isMember, rfl⟩, pointer⟩ := getElem?_forwardPointers.mp found
    exact ⟨_, ⟨node, isMember, rfl⟩, rfl, by simp [beliefEntry, found], by simp [beliefEntry, found]⟩

/-- The nodes of the diagnosed cycles. -/
theorem mem_beliefCycles :
    id ∈ beliefCycles records target ↔ Relation.TransGen
      (Follows (supersessionPointer (forwardPointers records target))) id id := by
  rw [beliefCycles, mem_foldl_insert, List.mem_flatMap]
  simp only [Std.ExtTreeSet.not_mem_empty, false_or]
  have known : ∀ node, (supersessionPointer (forwardPointers records target) node).isSome = true →
      node ∈ (forwardPointers records target).keys := by
    intro node points
    obtain ⟨newer, pointer⟩ := Option.isSome_iff_exists.mp points
    rw [Std.ExtTreeMap.mem_keys, Std.ExtTreeMap.mem_iff_isSome_getElem?,
      supersessionPointer_eq_some_iff.mp pointer]
    rfl
  have started : ∀ node, (supersessionPointer (forwardPointers records target) node).isSome = true →
      node ∈ (beliefMembers records target).map NodeRecord.id := by
    intro node points
    obtain ⟨newer, pointer⟩ := Option.isSome_iff_exists.mp points
    obtain ⟨⟨member, isMember, named⟩, -⟩ :=
      getElem?_forwardPointers.mp (supersessionPointer_eq_some_iff.mp pointer)
    exact List.mem_map.mpr ⟨member, isMember, named⟩
  have enough : (forwardPointers records target).keys.length <
      (forwardPointers records target).size + 1 := by
    simp
  rw [← mem_cycleFrom_iff known started enough]
  simp only [List.mem_map, exists_exists_and_eq_and]

/-- The cycles of the answer are those of the walk. -/
theorem cycleIds_beliefTimeline {chrono : Chrono} :
    (beliefTimeline records target chrono).cycleIds = (beliefCycles records target).toList := by
  have others : ((danglingPointers records target).toList.map danglingDiagnostic).filter
      (fun diagnostic => diagnostic.code = "supersession_cycle") = [] := by
    refine List.filter_eq_nil_iff.mpr fun diagnostic member => ?_
    obtain ⟨pair, -, rfl⟩ := List.mem_map.mp member
    simp [danglingDiagnostic]
  simp only [BeliefTimeline.cycleIds, beliefTimeline, List.filter_append, others, List.append_nil]
  split
  next empty =>
    rw [Std.ExtTreeSet.isEmpty_iff.mp empty]
    rfl
  next => simp [cycleMembersDiagnostic]

end Pointers

/-! ## The collapsed slice -/

section Collapse

variable {records : List GraphRecord} {id : String} {target : ResolvedBeliefTarget}

/-- The stated records have the latest nodes that the records have. -/
theorem latestNodes_stated : latestNodes (statedRecords records) = latestNodes records := by
  apply Std.ExtTreeMap.ext_getElem?
  intro id
  ext node
  rw [getElem?_latestNodes, getElem?_latestNodes, deleted_stated, lastEvent_writesNode_stated]
  cases (Liveness.new records).deleted id <;> simp

/-- They have the same citing edges. -/
theorem edgeCited_stated : edgeCited (statedRecords records) target = edgeCited records target := by
  apply Std.ExtTreeSet.ext_mem
  intro id
  rw [mem_edgeCited, mem_edgeCited, CitedByEdge, CitedByEdge]
  refine exists_congr fun edge => ?_
  rw [deleted_stated, lastEvent_writesEdge_stated]
  cases (Liveness.new records).deleted edge.id <;> simp

/-- They have the same members. -/
theorem beliefMembers_stated :
    beliefMembers (statedRecords records) target = beliefMembers records target := by
  rw [beliefMembers, beliefMembers, latestNodes_stated, edgeCited_stated]

/-- They have the same pointer of a belief. -/
theorem forwardPointer_stated :
    forwardPointer (statedRecords records) id = forwardPointer records id := by
  rw [forwardPointer_eq, forwardPointer_eq, latestNodes_stated, supersededBy_stated,
    contradicts_stated]

/-- So they have the same pointers. -/
theorem forwardPointers_stated :
    forwardPointers (statedRecords records) target = forwardPointers records target := by
  rw [forwardPointers, forwardPointers, beliefMembers_stated]
  simp only [forwardPointer_stated]

/-- They have the same names without a belief. -/
theorem danglingNames_stated :
    danglingNames (statedRecords records) id = danglingNames records id := by
  simp only [danglingNames, TemporalResolver.immediateSuperseders, List.takeWhile_map,
    List.map_map, latestNodes_stated, supersededBy_stated]
  rfl

/-- A live node keeps its handle. -/
theorem getHandle_stated (live : (Liveness.new records).deleted id = false) :
    (TemporalResolver.build (statedRecords records)).getHandle id =
      (TemporalResolver.build records).getHandle id := by
  rw [TemporalResolver.getHandle, TemporalResolver.getHandle, recordsById_build,
    recordsById_build, lastEvent_writesNode_stated, live]
  rfl

/-- They have the same entry of a member. -/
theorem beliefEntry_stated {chrono : Chrono} {node : NodeRecord}
    (isMember : node ∈ beliefMembers records target) :
    beliefEntry target chrono (TemporalResolver.build (statedRecords records))
        (forwardPointers records target) node =
      beliefEntry target chrono (TemporalResolver.build records)
        (forwardPointers records target) node := by
  have own := getHandle_stated (mem_beliefMembers.mp isMember).1.live
  have forward : (forwardPointers records target)[node.id]?.map (fun pointer =>
        (TemporalResolver.build (statedRecords records)).getHandle pointer.1) =
      (forwardPointers records target)[node.id]?.map fun pointer =>
        (TemporalResolver.build records).getHandle pointer.1 := by
    refine Option.map_congr fun pointer found => getHandle_stated ?_
    exact live_of_forwardPointer (getElem?_forwardPointers.mp found).2
  simp only [beliefEntry, own, forward]

/-- So they have the same timeline. -/
theorem beliefTimeline_stated (chrono : Chrono) :
    beliefTimeline (statedRecords records) target chrono = beliefTimeline records target chrono := by
  have cycles : beliefCycles (statedRecords records) target = beliefCycles records target := by
    rw [beliefCycles, beliefCycles, beliefMembers_stated, forwardPointers_stated]
  have dangling : danglingPointers (statedRecords records) target =
      danglingPointers records target := by
    rw [danglingPointers, danglingPointers, beliefMembers_stated]
    simp only [danglingNames_stated]
  have entries : ((beliefMembers records target).insertionSort
        fun first second => beliefOrder chrono first second ≠ .gt).map
          (beliefEntry target chrono (TemporalResolver.build (statedRecords records))
            (forwardPointers records target)) =
      ((beliefMembers records target).insertionSort
        fun first second => beliefOrder chrono first second ≠ .gt).map
          (beliefEntry target chrono (TemporalResolver.build records)
            (forwardPointers records target)) :=
    List.map_congr_left fun node member =>
      beliefEntry_stated ((List.mem_insertionSort _).mp member)
  simp only [beliefTimeline, beliefMembers_stated, forwardPointers_stated, cycles, dangling,
    entries]

end Collapse

/-- The IDs of the entries are those of the members. -/
theorem recordIds_perm {records : List GraphRecord} {chrono : Chrono}
    {target : ResolvedBeliefTarget} :
    ((beliefTimeline records target chrono).entries.map BeliefEntry.recordId).Perm
      ((beliefMembers records target).map NodeRecord.id) := by
  simp only [beliefTimeline, List.map_map]
  exact (List.perm_insertionSort _ _).map _

/-- The timeline reflects the records: its members, their order, their pointers and its cycles. -/
theorem timeline_reflects (records : List GraphRecord) (chrono : Chrono)
    (target : ResolvedBeliefTarget) :
    TimelineReflects records (statedRecords records) chrono target where
  entries id := by
    rw [recordIds_perm.mem_iff, List.mem_map, exists_beliefMember]
  once := recordIds_perm.nodup_iff.mpr nodup_beliefMembers
  statuses entry member := by
    obtain ⟨node, isMember, rfl⟩ := mem_entries.mp member
    exact reflects_beliefEntry isMember
  cycles id := by
    have pointers : (beliefTimeline records target chrono).Pointer =
        Follows (supersessionPointer (forwardPointers records target)) := by
      funext id newer
      exact propext pointer_iff
    rw [cycleIds_beliefTimeline, Std.ExtTreeSet.mem_toList, mem_beliefCycles, pointers]
  cyclesOnce := by
    rw [cycleIds_beliefTimeline, List.Nodup]
    refine Std.ExtTreeSet.ordered_toList.imp fun less same => ?_
    rw [same, (Std.ReflCmp.compare_self : byteOrder _ _ = .eq)] at less
    cases less
  collapse := beliefTimeline_stated chrono

/-- A timeline reflects what the slice states. Without snapshots that is its current state. -/
theorem beliefTimeline_reflects (records : List GraphRecord) (chrono : Chrono)
    (target : ResolvedBeliefTarget) :
    TimelineReflects records (statedRecords records) chrono target ∧
      ((∀ node, .node node ∈ records → node.temporal = none) →
        TimelineReflects records (currentRecords records) chrono target) := by
  refine ⟨timeline_reflects records chrono target, fun history => ?_⟩
  rw [← statedRecords_eq_current history]
  exact timeline_reflects records chrono target

/-! ### A withdrawn supersession in a history -/

/-- A belief whose history has a snapshot that supersedes another belief, and a later one that
does not. -/
def withdrawnSnapshot : List GraphRecord :=
  let newer : NodeRecord :=
    { id := "agent_memory:v1:newer", kind := .observation, schemaVersion := 1
      temporal := some
        { gitCommit := "c1", validTime := "2026-01-01T00:00:00Z"
          observedAt := "2026-01-01T00:00:00Z" }
      rest := [("agent_id", "ada")] }
  let supersedes : EvidenceLink := ⟨some "agent_memory:v1:older", "agent_memory", "SUPERSEDES", []⟩
  let mentions : EvidenceLink := ⟨some "codegraph:v1:symbol", "codegraph", "MENTIONS_SYMBOL", []⟩
  [.node { newer with evidenceLinks := some [supersedes] },
    .node newer,
    .node
      { id := "agent_memory:v1:older", kind := .observation, schemaVersion := 1
        evidenceLinks := some [mentions], rest := [("agent_id", "ada")] }]

/-- The earlier snapshot supersedes, and in the current state nothing does. -/
theorem withdrawnSnapshot_not_reflects :
    ¬ TimelineReflects withdrawnSnapshot (currentRecords withdrawnSnapshot)
      ⟨fun _ => .error "no time", fun _ => ""⟩ ⟨"codegraph:v1:symbol", .symbol, "src/a.rs#foo"⟩ :=
  fun reflects => absurd reflects.collapse (by decide +kernel)

end Egregore
