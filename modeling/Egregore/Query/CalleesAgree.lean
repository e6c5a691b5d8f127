import Egregore.Base.BoundedSearch
import Egregore.Query.TransitiveCallees

/-!
# Transitive callees against direct dependencies

The walk of `transitive_callees` finds the nodes of each level up to its bound. At
depth one its rows and its unresolved edges are compared with those of
`symbol_dependencies`. `lanesAgree_iff` is exact: they differ where an edge of an
unresolved dispatch, and none of another resolution, leads to a record that is
shown.
-/

namespace Egregore

open Base

variable {records : List GraphRecord} {anchorId : String}

section Edges

/-- A line that is the last version of a live edge under a dependency label. -/
structure CurrentEdge (records : List GraphRecord) (index : Nat) (edge : EdgeRecord) : Prop where
  line : records[index]? = some (.edge edge)
  latest : (Liveness.new records).isLatestEdgeVersion edge.id index = true
  live : (Liveness.new records).deleted edge.id = false
  label : transitiveCalleeLabels.contains edge.label = true

/-- An ID has one current edge. -/
theorem CurrentEdge.unique {index other : Nat} {edge edge' : EdgeRecord}
    (current : CurrentEdge records index edge) (current' : CurrentEdge records other edge')
    (same : edge.id = edge'.id) : edge = edge' := by
  have latest := current.latest
  have latest' := current'.latest
  simp only [Liveness.isLatestEdgeVersion, decide_eq_true_eq] at latest latest'
  rw [same, latest', Option.some.injEq] at latest
  have line := current.line
  rw [← latest, current'.line, Option.some.injEq, GraphRecord.edge.injEq] at line
  exact line.symm

/-- The direct lane reports the current edges from the anchor. -/
theorem reported_iff {index : Nat} {edge : EdgeRecord} :
    Reported (Liveness.new records) anchorId records index edge ↔
      CurrentEdge records index edge ∧ edge.source = anchorId ∧ edge.target ≠ anchorId := by
  simp only [Reported, isDependencyEdge, Bool.and_eq_true, decide_eq_true_eq]
  constructor
  · rintro ⟨line, latest, live, ⟨source, label⟩, target⟩
    exact ⟨⟨line, latest, live, label⟩, source, target⟩
  · rintro ⟨⟨line, latest, live, label⟩, source, target⟩
    exact ⟨line, latest, live, ⟨source, label⟩, target⟩

/-- The entry of an edge under its source. -/
def calleeRefOf (edge : EdgeRecord) : TransitiveEdgeRef :=
  (edge.target, edge.id, edge.label.asStr, edge.resolution)

/-- References to one target by one edge are equal in rank. -/
theorem calleeOrder_eq_iff {edge other : TransitiveEdgeRef} :
    calleeOrder edge other = .eq ↔ edge.1 = other.1 ∧ edge.2.1 = other.2.1 := by
  simp only [calleeOrder, compareLex, compareOn, Ordering.then_eq_eq,
    Std.LawfulEqCmp.compare_eq_iff_eq]
  exact and_congr ⟨fun same => asBytes_injective same, congrArg asBytes⟩
    ⟨fun same => asBytes_injective same, congrArg asBytes⟩

instance : Std.TransCmp calleeOrder := inferInstanceAs (Std.TransCmp (compareLex _ _))

instance : Std.TransCmp calleePointerOrder := inferInstanceAs (Std.TransCmp (compareLex _ _))

/-- The lists hold the current edges by source. -/
private theorem mem_outboundCallees {source : String} {reference : TransitiveEdgeRef} :
    reference ∈ (outboundCallees records).getD source [] ↔
      ∃ index edge, CurrentEdge records index edge ∧ edge.source = source ∧
        reference = calleeRefOf edge := by
  rw [outboundCallees, getD_foldl_pushEntry]
  simp only [List.mem_map, List.mem_filter, List.mem_filterMap, decide_eq_true_eq]
  constructor
  · rintro ⟨⟨key, reference'⟩, ⟨⟨⟨record, index⟩, member, found⟩, rfl⟩, rfl⟩
    cases record with
    | node record => simp [calleeEdge] at found
    | tombstone record => simp [calleeEdge] at found
    | edge edge =>
        simp only [calleeEdge] at found
        split at found
        · next holds =>
            obtain ⟨rfl, rfl⟩ := Prod.mk.inj (Option.some.inj found)
            exact ⟨index, edge, ⟨List.mem_zipIdx_iff_getElem?.mp member, holds.1, holds.2.1,
              holds.2.2⟩, rfl, rfl⟩
        · contradiction
  · rintro ⟨index, edge, current, rfl, rfl⟩
    exact ⟨(edge.source, calleeRefOf edge), ⟨⟨(.edge edge, index),
      List.mem_zipIdx_iff_getElem?.mpr current.line,
      if_pos ⟨current.latest, current.live, current.label⟩⟩, rfl⟩, rfl⟩

/-- The outbound edges of a node: nothing is lost to the deduplication. -/
theorem mem_calleesFrom {source : String} {reference : TransitiveEdgeRef} :
    reference ∈ calleesFrom records source ↔
      ∃ index edge, CurrentEdge records index edge ∧ edge.source = source ∧
        reference = calleeRefOf edge := by
  rw [← mem_outboundCallees]
  refine mem_dedupBy_of_perm (List.perm_insertionSort _ _) fun kept isKept other isOther same => ?_
  obtain ⟨index, edge, current, -, rfl⟩ := mem_outboundCallees.mp isKept
  obtain ⟨index', edge', current', -, rfl⟩ := mem_outboundCallees.mp isOther
  rw [current.unique current' (calleeOrder_eq_iff.mp same).2]

end Edges

section Walk

/-- The live records of the slice, by id. -/
abbrev liveRecords (records : List GraphRecord) : StrMap GraphRecord :=
  liveById (Liveness.new records) records

/-- The links of the walk. -/
abbrev calleeLinks (records : List GraphRecord) (anchorId : String) :
    String → List (String × TransitiveEdgeRef) :=
  calleeDiscoveries records (liveRecords records) anchorId

/-- A live record is found under its own ID. -/
theorem id_of_liveRecords {id : String} {record : GraphRecord}
    (found : (liveRecords records)[id]? = some record) : record.id = id := by
  rw [getElem?_liveById] at found
  split at found
  · contradiction
  · exact of_decide_eq_true (mem_of_lastEvent found).2

/-- A callee is discovered over a resolved edge to a node that is shown. -/
theorem discoverCallee_eq_some {byId : StrMap GraphRecord} {node : String} {edge : EdgeRecord}
    {discovery : String × TransitiveEdgeRef} :
    discoverCallee byId anchorId node (calleeRefOf edge) = some discovery ↔
      edge.target ≠ anchorId ∧ edge.resolution ≠ some .unresolved ∧
      (∃ record, byId[edge.target]? = some record ∧ record.nodeKind? ≠ some .diagnostic) ∧
      discovery = (edge.target, edge.id, node, edge.label.asStr, edge.resolution) := by
  simp only [discoverCallee, calleeRefOf]
  by_cases self : edge.target = anchorId
  · simp [self]
  · simp only [self, if_false]
    cases byId[edge.target]? with
    | none => simp
    | some record =>
        by_cases unresolved : record.nodeKind? = some .diagnostic ∨
            edge.resolution = some .unresolved
        · rcases unresolved with diagnostic | unresolved
          · simp [self, diagnostic]
          · simp [self, unresolved]
        · rw [not_or] at unresolved
          simp [self, unresolved.1, unresolved.2, eq_comm (b := discovery)]

/-- A link of the walk. -/
theorem mem_calleeLinks {node target : String} {pointer : TransitiveEdgeRef} :
    (target, pointer) ∈ calleeLinks records anchorId node ↔
      ∃ index edge, CurrentEdge records index edge ∧ edge.source = node ∧ edge.target ≠ anchorId ∧
        edge.resolution ≠ some .unresolved ∧
        (∃ record, (liveRecords records)[edge.target]? = some record ∧
          record.nodeKind? ≠ some .diagnostic) ∧
        target = edge.target ∧ pointer = (edge.id, node, edge.label.asStr, edge.resolution) := by
  rw [calleeLinks, calleeDiscoveries, List.mem_filterMap]
  constructor
  · rintro ⟨reference, member, found⟩
    obtain ⟨index, edge, current, source, rfl⟩ := mem_calleesFrom.mp member
    obtain ⟨away, resolved, live, same⟩ := discoverCallee_eq_some.mp found
    obtain ⟨rfl, rfl⟩ := Prod.mk.inj same
    exact ⟨index, edge, current, source, away, resolved, live, rfl, rfl⟩
  · rintro ⟨index, edge, current, source, away, resolved, live, rfl, rfl⟩
    exact ⟨calleeRefOf edge, mem_calleesFrom.mpr ⟨index, edge, current, source, rfl⟩,
      discoverCallee_eq_some.mpr ⟨away, resolved, live, rfl⟩⟩

/-- A link remembers the edge it was found by. -/
theorem parent_of_mem_calleeLinks (node target : String) (pointer : TransitiveEdgeRef)
    (member : (target, pointer) ∈ calleeLinks records anchorId node) : pointer.2.1 = node := by
  obtain ⟨index, edge, -, -, -, -, -, -, rfl⟩ := mem_calleeLinks.mp member
  rfl

/-- What a walk has found at its depth. -/
structure CalleeWalk.Describes (records : List GraphRecord) (anchorId : String)
    (walk : CalleeWalk) : Prop where
  search : walk.search.Describes calleePointerOrder (calleeLinks records anchorId) anchorId
    walk.depth
  hopOf : ∀ node hop, walk.hopOf[node]? = some hop ↔
    1 ≤ hop ∧ hop ≤ walk.depth ∧ AtLevel (calleeLinks records anchorId) anchorId hop node

/-- The walk as a bounded search. -/
def CalleeWalk.bounded (walk : CalleeWalk) : BoundedSearch String TransitiveEdgeRef byteOrder :=
  { depth := walk.depth, search := walk.search, hopOf := walk.hopOf }

theorem CalleeWalk.describes_iff {walk : CalleeWalk} :
    walk.Describes records anchorId ↔
      walk.bounded.Describes calleePointerOrder (calleeLinks records anchorId) anchorId :=
  ⟨fun described => ⟨described.search, described.hopOf⟩,
    fun described => ⟨described.search, described.hopOf⟩⟩

/-- The loop is that of the bounded search. -/
theorem CalleeWalk.bounded_run (left : Nat) (walk : CalleeWalk) :
    (CalleeWalk.run records (liveRecords records) anchorId left walk).bounded =
      BoundedSearch.run calleePointerOrder (calleeLinks records anchorId) left walk.bounded := by
  induction left generalizing walk with
  | zero => rfl
  | succ left ih =>
      rw [CalleeWalk.run, BoundedSearch.run, apply_ite CalleeWalk.bounded, ih]
      rfl

/-- The walk starts at the anchor. -/
theorem CalleeWalk.start_describes :
    ({ search := LevelSearch.start anchorId } : CalleeWalk).Describes records anchorId :=
  CalleeWalk.describes_iff.mpr BoundedSearch.start_describes

/-- The loop stops at the bound or where nothing is left. -/
theorem CalleeWalk.Describes.run {walk : CalleeWalk} (described : walk.Describes records anchorId)
    (left : Nat) :
    (CalleeWalk.run records (liveRecords records) anchorId left walk).Describes records anchorId ∧
      ((CalleeWalk.run records (liveRecords records) anchorId left walk).depth = walk.depth + left ∨
        (CalleeWalk.run records (liveRecords records) anchorId left walk).depth < walk.depth + left ∧
        ∀ node, ¬ AtLevel (calleeLinks records anchorId) anchorId
          (CalleeWalk.run records (liveRecords records) anchorId left walk).depth node) := by
  have ran := (CalleeWalk.describes_iff.mp described).run left
  rw [← CalleeWalk.bounded_run] at ran
  exact ran.imp_left CalleeWalk.describes_iff.mpr

/-- The hops within a bound are the levels up to it. -/
theorem hopOf_calleeWalk (records : List GraphRecord) (anchorId : String) (maxDepth : Nat)
    (node : String) (hop : Nat) :
    (calleeWalk records (liveRecords records) anchorId maxDepth).hopOf[node]? = some hop ↔
      1 ≤ hop ∧ hop ≤ maxDepth ∧ AtLevel (calleeLinks records anchorId) anchorId hop node := by
  have same : (calleeWalk records (liveRecords records) anchorId maxDepth).bounded =
      BoundedSearch.run calleePointerOrder (calleeLinks records anchorId) maxDepth
        { search := LevelSearch.start anchorId } :=
    CalleeWalk.bounded_run maxDepth _
  change (calleeWalk records (liveRecords records) anchorId maxDepth).bounded.hopOf[node]? =
    some hop ↔ _
  rw [same]
  exact BoundedSearch.hopOf_run maxDepth node hop

/-- The walk never panics, and its rows are the nodes of each level up to the bound. -/
theorem transitiveCallees_ok (known : Known records anchorId) (maxDepth : Nat) :
    ∃ context, transitiveCallees records anchorId maxDepth = .ok (some context) ∧
      (∀ id hop, (∃ row ∈ context.rows, row.record.id = id ∧ row.hop = hop) ↔
        1 ≤ hop ∧ hop ≤ maxDepth ∧ AtLevel (calleeLinks records anchorId) anchorId hop id) ∧
      context.unresolved = (unresolvedCallees records (liveRecords records) anchorId
        (calleeWalk records (liveRecords records) anchorId maxDepth).hopOf maxDepth).toList.map
          Prod.snd := by
  obtain ⟨anchor, found⟩ := Option.isSome_iff_exists.mp (isSome_liveById.mpr known)
  have start : CalleeWalk.Describes records anchorId { search := LevelSearch.start anchorId } :=
    CalleeWalk.start_describes
  have described := (start.run maxDepth).1
  rw [← calleeWalk] at described
  have hops := hopOf_calleeWalk records anchorId maxDepth
  simp only [transitiveCallees, found]
  generalize calleeWalk records (liveRecords records) anchorId maxDepth = walk at described hops ⊢
  -- Every discovered node has a live record and a chain of pointers.
  have row : ∀ node hop, walk.hopOf[node]? = some hop →
      ∃ row, calleeRow (liveRecords records) anchorId walk.search (node, hop) = .ok row ∧
        row.record.id = node ∧ row.hop = hop := by
    intro node hop discovered
    obtain ⟨least, bound, atHop⟩ := (described.hopOf node hop).mp discovered
    obtain ⟨before, rfl⟩ : ∃ before, hop = before + 1 := ⟨hop - 1, by omega⟩
    obtain ⟨source, pointer, -, link⟩ := atHop.exists_prior
    obtain ⟨-, edge, -, -, -, -, ⟨record, live, -⟩, rfl, -⟩ := mem_calleeLinks.mp link
    obtain ⟨links, chained, -⟩ := described.search.chainTo parent_of_mem_calleeLinks atHop bound
      (Nat.le_refl _)
    refine ⟨_, by simp only [calleeRow, live, chained]; rfl, id_of_liveRecords live, rfl⟩
  obtain ⟨rows, mapped, made, kept⟩ := BoundedSearch.exists_rows row
  rw [mapped]
  refine ⟨_, rfl, fun id hop => ?_, rfl⟩
  simp only [List.mem_insertionSort]
  constructor
  · rintro ⟨found, member, rfl, rfl⟩
    obtain ⟨node, hop, discovered, rfl, rfl⟩ := made found member
    exact (hops _ _).mp discovered
  · intro within
    exact kept id hop ((hops id hop).mpr within)

/-- An unknown anchor has no answer. -/
theorem transitiveCallees_unknown (unknown : ¬ Known records anchorId) (maxDepth : Nat) :
    transitiveCallees records anchorId maxDepth = .ok none := by
  rw [← isSome_liveById, Option.not_isSome_iff_eq_none] at unknown
  simp only [transitiveCallees, unknown]

end Walk

section DepthOne

/-- An unresolved row without its lane: relation, target, edge, reason and resolution. -/
abbrev UnresolvedRow := String × String × String × String × Option CallResolution

def UnresolvedCalleeRow.row (row : UnresolvedCalleeRow) : UnresolvedRow :=
  (row.relation, row.targetId, row.edgeId, row.reason.asStr, row.resolution)

def UnresolvedDependencyRow.row (row : UnresolvedDependencyRow) : UnresolvedRow :=
  (row.relation, row.targetId, row.edgeId, row.reason.asStr, row.resolution)

/-- The key of a row. -/
def keyOfRow (row : UnresolvedRow) : RowKey := (row.1, row.2.1, row.2.2.1)

/-- The second pass and the dependency lane classify an edge alike. -/
theorem unresolvedCallee_row (byId : StrMap GraphRecord) {edge : EdgeRecord} (hop : Nat)
    (away : edge.target ≠ anchorId) :
    (unresolvedCallee byId anchorId (anchorId, hop) (calleeRefOf edge)).map
      UnresolvedCalleeRow.row =
    match dependencyOutcome byId edge with
    | .unresolved row => some row.row
    | .resolved _ => none := by
  simp only [unresolvedCallee, calleeRefOf, dependencyOutcome, away, if_false]
  cases byId[edge.target]? with
  | none =>
      simp only [Option.map_some, UnresolvedCalleeRow.row, UnresolvedDependencyRow.row]
      by_cases dispatch : edge.resolution = some .unresolvedDispatch
      · simp only [dispatch, if_true]
        rfl
      · by_cases unresolved : edge.resolution = some .unresolved
        · simp only [unresolved, if_true]
          rfl
        · simp only [dispatch, unresolved, if_false]
          rfl
  | some record =>
      by_cases reports : record.nodeKind? = some .diagnostic ∨ edge.resolution = some .unresolved ∨
          edge.resolution = some .unresolvedDispatch
      · simp only [reports, if_true, Option.map_some, UnresolvedCalleeRow.row,
          UnresolvedDependencyRow.row]
        by_cases dispatch : edge.resolution = some .unresolvedDispatch
        · simp only [dispatch, if_true]
          rfl
        · simp only [dispatch, if_false]
          rfl
      · simp only [reports, if_false, Option.map_none]

/-- A row of the dependency lane, from the outcome of its edge. -/
theorem dependencyOutcome_resolved_iff {byId : StrMap GraphRecord} {edge : EdgeRecord}
    {row : SymbolDependencyRow} :
    dependencyOutcome byId edge = .resolved row ↔
      ∃ record, byId[edge.target]? = some record ∧ record.nodeKind? ≠ some .diagnostic ∧
        edge.resolution ≠ some .unresolved ∧ edge.resolution ≠ some .unresolvedDispatch ∧
        row = ⟨record, edge.id, edge.label.asStr, edge.resolution⟩ := by
  simp only [dependencyOutcome]
  cases byId[edge.target]? with
  | none => simp
  | some record =>
      simp only [Option.some.injEq, exists_eq_left']
      split
      · next unresolved =>
          simp only [reduceCtorEq, false_iff]
          rintro ⟨diagnostic, resolved, dispatch, -⟩
          rcases unresolved with holds | holds | holds
          · exact diagnostic holds
          · exact resolved holds
          · exact dispatch holds
      · next resolved =>
          simp only [not_or] at resolved
          simp [resolved.1, resolved.2.1, resolved.2.2, eq_comm]

/-- An edge that the walk follows and the second pass reports: a dispatch edge to an ordinary
node. -/
structure FollowedDispatch (records : List GraphRecord) (anchorId : String) (edge : EdgeRecord) :
    Prop where
  reported : ∃ index, Reported (Liveness.new records) anchorId records index edge
  dispatch : edge.resolution = some .unresolvedDispatch
  target : ∃ record, (liveRecords records)[edge.target]? = some record ∧
    record.nodeKind? ≠ some .diagnostic

/-- Another edge of the anchor makes the target an ordinary dependency. -/
def OtherwiseResolved (records : List GraphRecord) (anchorId target : String) : Prop :=
  ∃ index edge, Reported (Liveness.new records) anchorId records index edge ∧
    edge.target = target ∧ edge.resolution ≠ some .unresolved ∧
    edge.resolution ≠ some .unresolvedDispatch

/-- The two lanes say the same about one anchor at depth one, and no unresolved edge is the only
one to make its target reachable. -/
structure AgreeAtDepthOne (records : List GraphRecord) (anchorId : String)
    (callees : TransitiveCalleesContext) (dependencies : SymbolDependenciesContext) : Prop where
  nodes : ∀ id, (∃ row ∈ callees.rows, row.record.id = id) ↔
    ∃ row ∈ dependencies.dependencies, row.record.id = id
  unresolved : callees.unresolved.map UnresolvedCalleeRow.row =
    dependencies.unresolved.map UnresolvedDependencyRow.row
  exclusive : ∀ row ∈ callees.unresolved,
    (∃ pointer, (row.targetId, pointer) ∈ calleeLinks records anchorId anchorId) →
    ∃ pointer, (row.targetId, pointer) ∈ calleeLinks records anchorId anchorId ∧
      pointer.1 ≠ row.edgeId

/-- The walk's nodes at depth one are the targets of its links. -/
theorem atLevel_one_iff {id : String} (away : id ≠ anchorId) :
    AtLevel (calleeLinks records anchorId) anchorId 1 id ↔
      ∃ pointer, (id, pointer) ∈ calleeLinks records anchorId anchorId := by
  constructor
  · intro atLevel
    obtain ⟨source, pointer, atStart, link⟩ := atLevel.exists_prior
    obtain rfl := atLevel_zero.mp atStart
    exact ⟨pointer, link⟩
  · rintro ⟨pointer, link⟩
    refine (atLevel_zero.mpr rfl).succ_of_link link fun shorter bound walk => ?_
    obtain rfl := Nat.le_zero.mp bound
    cases walk
    exact away rfl

/-- A followed target is an ordinary dependency or reached by a dispatch edge. -/
theorem exists_link_iff {id : String} :
    (∃ pointer, (id, pointer) ∈ calleeLinks records anchorId anchorId) ↔
      (∃ record, (liveRecords records)[id]? = some record ∧ record.nodeKind? ≠ some .diagnostic) ∧
      (OtherwiseResolved records anchorId id ∨
        ∃ edge, FollowedDispatch records anchorId edge ∧ edge.target = id) := by
  constructor
  · rintro ⟨pointer, link⟩
    obtain ⟨index, edge, current, source, away, resolved, live, rfl, -⟩ := mem_calleeLinks.mp link
    have reported := reported_iff.mpr ⟨current, source, away⟩
    refine ⟨live, ?_⟩
    by_cases dispatch : edge.resolution = some .unresolvedDispatch
    · exact Or.inr ⟨edge, ⟨⟨index, reported⟩, dispatch, live⟩, rfl⟩
    · exact Or.inl ⟨index, edge, reported, rfl, resolved, dispatch⟩
  · rintro ⟨live, ⟨index, edge, reported, rfl, resolved, -⟩ | ⟨edge, followed, rfl⟩⟩
    · obtain ⟨current, source, away⟩ := reported_iff.mp reported
      exact ⟨_, mem_calleeLinks.mpr ⟨index, edge, current, source, away, resolved, live, rfl, rfl⟩⟩
    · obtain ⟨index, reported⟩ := followed.reported
      obtain ⟨current, source, away⟩ := reported_iff.mp reported
      exact ⟨_, mem_calleeLinks.mpr ⟨index, edge, current, source, away,
        by simp [followed.dispatch], live, rfl, rfl⟩⟩

/-- An unresolved row shows the edge and its target. -/
theorem ends_of_unresolvedCallee {byId : StrMap GraphRecord} {source : String × Nat}
    {reference : TransitiveEdgeRef} {row : UnresolvedCalleeRow}
    (found : unresolvedCallee byId anchorId source reference = some row) :
    row.targetId = reference.1 ∧ row.edgeId = reference.2.1 := by
  obtain ⟨target, edgeId, label, resolution⟩ := reference
  simp only [unresolvedCallee] at found
  split at found
  · contradiction
  · split at found
    · split at found
      · rw [← Option.some.inj found]
        exact ⟨rfl, rfl⟩
      · contradiction
    · rw [← Option.some.inj found]
      exact ⟨rfl, rfl⟩

/-- The unresolved rows of the anchor, as a map. -/
private theorem getElem?_unresolvedCallees {hopOf : StrMap Nat}
    (deeper : ∀ (node : String) (hop : Nat), hopOf[node]? = some hop → 1 ≤ hop) (key : RowKey)
    (row : UnresolvedCalleeRow) :
    (unresolvedCallees records (liveRecords records) anchorId hopOf 1)[key]? = some row ↔
      row.key = key ∧ ∃ index edge, CurrentEdge records index edge ∧ edge.source = anchorId ∧
        unresolvedCallee (liveRecords records) anchorId (anchorId, 0) (calleeRefOf edge) =
          some row := by
  have sources : ((anchorId, 0) :: hopOf.toList).filter (fun source => decide (source.2 < 1)) =
      [(anchorId, 0)] := by
    have none : hopOf.toList.filter (fun source => decide (source.2 < 1)) = [] := by
      rw [List.filter_eq_nil_iff]
      rintro ⟨node, hop⟩ member
      have := deeper node hop (Std.ExtTreeMap.mem_toList_iff_getElem?_eq_some.mp member)
      simp only [decide_eq_true_eq]
      omega
    simp only [List.filter_cons, none]
    rfl
  have mem : ∀ row, row ∈ (calleesFrom records anchorId).filterMap
      (unresolvedCallee (liveRecords records) anchorId (anchorId, 0)) ↔
        ∃ index edge, CurrentEdge records index edge ∧ edge.source = anchorId ∧
          unresolvedCallee (liveRecords records) anchorId (anchorId, 0) (calleeRefOf edge) =
            some row := by
    intro row
    rw [List.mem_filterMap]
    constructor
    · rintro ⟨reference, member, found⟩
      obtain ⟨index, edge, current, source, rfl⟩ := mem_calleesFrom.mp member
      exact ⟨index, edge, current, source, found⟩
    · rintro ⟨index, edge, current, source, found⟩
      exact ⟨_, mem_calleesFrom.mpr ⟨index, edge, current, source, rfl⟩, found⟩
  rw [unresolvedCallees, sources, List.flatMap_singleton,
    getElem?_foldl_insertIfNew UnresolvedCalleeRow.key, mem, and_comm]
  -- An edge id is latest once, so a key belongs to one row.
  intro row member other member' same
  obtain ⟨index, edge, current, -, found⟩ := (mem row).mp member
  obtain ⟨index', edge', current', -, found'⟩ := (mem other).mp member'
  have sameEdge : row.edgeId = other.edgeId := congrArg (fun key => key.2.2) same
  rw [(ends_of_unresolvedCallee found).2, (ends_of_unresolvedCallee found').2] at sameEdge
  obtain rfl := current.unique current' sameEdge
  exact Option.some.inj (found.symm.trans found')

/-- The unresolved rows of the two lanes are always the same. -/
theorem unresolved_agree {hopOf : StrMap Nat}
    (deeper : ∀ (node : String) (hop : Nat), hopOf[node]? = some hop → 1 ≤ hop) {rows : DependencyRows}
    (described : RowsOf (Liveness.new records) (liveRecords records) anchorId records rows) :
    ((unresolvedCallees records (liveRecords records) anchorId hopOf 1).toList.map Prod.snd).map
        UnresolvedCalleeRow.row =
      (rows.unresolved.toList.map Prod.snd).map UnresolvedDependencyRow.row := by
  have maps : (unresolvedCallees records (liveRecords records) anchorId hopOf 1).map
      (fun _ row => row.row) = rows.unresolved.map fun _ row => row.row := by
    ext key row
    rw [Std.ExtTreeMap.getElem?_map, Std.ExtTreeMap.getElem?_map, Option.map_eq_some_iff,
      Option.map_eq_some_iff]
    constructor
    · rintro ⟨callee, found, rfl⟩
      obtain ⟨rfl, index, edge, current, source, reads⟩ :=
        (getElem?_unresolvedCallees deeper key callee).mp found
      have away : edge.target ≠ anchorId := by
        intro self
        simp [unresolvedCallee, calleeRefOf, self] at reads
      have classified := unresolvedCallee_row (liveRecords records) 0 away
      rw [reads, Option.map_some] at classified
      cases outcome : dependencyOutcome (liveRecords records) edge with
      | resolved row => simp [outcome] at classified
      | unresolved dependency =>
          simp only [outcome, Option.some.injEq] at classified
          refine ⟨dependency, (described.unresolved _ _).mpr ⟨?_, index, edge,
            reported_iff.mpr ⟨current, source, away⟩, outcome⟩, classified.symm⟩
          exact congrArg keyOfRow classified
    · rintro ⟨dependency, found, rfl⟩
      obtain ⟨rfl, index, edge, reported, reads⟩ := (described.unresolved key dependency).mp found
      obtain ⟨current, source, away⟩ := reported_iff.mp reported
      have classified := unresolvedCallee_row (liveRecords records) 0 away
      simp only [reads, Option.map_eq_some_iff] at classified
      obtain ⟨callee, reads', same⟩ := classified
      exact ⟨callee, (getElem?_unresolvedCallees deeper _ callee).mpr ⟨congrArg keyOfRow same,
        index, edge, current, source, reads'⟩, same⟩
  have lists := congrArg (fun map : Std.ExtTreeMap RowKey UnresolvedRow tripleOrder =>
    map.toList.map Prod.snd) maps
  simpa [Std.ExtTreeMap.toList_map, Function.comp_def] using lists

/-- The nodes of the walk at depth one. -/
private theorem callee_node_iff {id : String} :
    1 ≤ 1 ∧ AtLevel (calleeLinks records anchorId) anchorId 1 id ↔
      ∃ pointer, (id, pointer) ∈ calleeLinks records anchorId anchorId := by
  by_cases self : id = anchorId
  · subst self
    constructor
    · rintro ⟨-, atLevel⟩
      have := atLevel.unique (atLevel_zero.mpr rfl)
      omega
    · rintro ⟨pointer, link⟩
      obtain ⟨-, edge, -, -, away, -, -, same, -⟩ := mem_calleeLinks.mp link
      exact absurd same.symm away
  · rw [atLevel_one_iff self]
    exact and_iff_right (Nat.le_refl 1)

/-- The nodes of the dependency lane. -/
private theorem dependency_node_iff {rows : DependencyRows}
    (described : RowsOf (Liveness.new records) (liveRecords records) anchorId records rows)
    {id : String} :
    (∃ row ∈ rows.dependencies.toList.map Prod.snd, row.record.id = id) ↔
      (∃ record, (liveRecords records)[id]? = some record ∧ record.nodeKind? ≠ some .diagnostic) ∧
        OtherwiseResolved records anchorId id := by
  constructor
  · rintro ⟨row, member, rfl⟩
    obtain ⟨⟨key, row⟩, inside, rfl⟩ := List.mem_map.mp member
    obtain ⟨-, index, edge, reported, reads⟩ := (described.dependencies key row).mp
      (Std.ExtTreeMap.mem_toList_iff_getElem?_eq_some.mp inside)
    obtain ⟨record, live, ordinary, resolved, dispatch, rfl⟩ := dependencyOutcome_resolved_iff.mp reads
    have named := id_of_liveRecords live
    simp only [named]
    exact ⟨⟨record, live, ordinary⟩, index, edge, reported, rfl, resolved, dispatch⟩
  · rintro ⟨⟨record, live, ordinary⟩, index, edge, reported, rfl, resolved, dispatch⟩
    have reads := dependencyOutcome_resolved_iff.mpr
      ⟨record, live, ordinary, resolved, dispatch, rfl⟩
    refine ⟨_, List.mem_map.mpr ⟨⟨_, _⟩, Std.ExtTreeMap.mem_toList_iff_getElem?_eq_some.mpr
      ((described.dependencies _ _).mpr ⟨rfl, index, edge, reported, reads⟩), rfl⟩, ?_⟩
    exact id_of_liveRecords live

/-- Both lanes at depth one: both without an anchor, or in agreement. -/
def LanesAgree (records : List GraphRecord) (anchorId : String) : Prop :=
  match transitiveCallees records anchorId 1, symbolDependencies records anchorId with
  | .ok (some callees), some dependencies =>
      AgreeAtDepthOne records anchorId callees dependencies
  | .ok none, none => True
  | _, _ => False

/-- The lanes agree exactly when every dispatch edge that the walk follows leads to a node that
another edge makes an ordinary dependency. -/
theorem lanesAgree_iff (records : List GraphRecord) (anchorId : String) :
    LanesAgree records anchorId ↔
      (Known records anchorId → ∀ edge, FollowedDispatch records anchorId edge →
        OtherwiseResolved records anchorId edge.target) := by
  by_cases known : Known records anchorId
  · obtain ⟨callees, ok, rowIds, unresolvedRows⟩ := transitiveCallees_ok known 1
    obtain ⟨anchor, found⟩ := Option.isSome_iff_exists.mp (isSome_liveById.mpr known)
    have described := rows_foldl (Liveness.new records) (liveRecords records) anchorId records
    have deeper : ∀ (node : String) (hop : Nat),
        (calleeWalk records (liveRecords records) anchorId 1).hopOf[node]? = some hop → 1 ≤ hop :=
      fun node hop discovered => ((hopOf_calleeWalk records anchorId 1 node hop).mp discovered).1
    have nodes : ∀ id, (∃ row ∈ callees.rows, row.record.id = id) ↔
        ∃ pointer, (id, pointer) ∈ calleeLinks records anchorId anchorId := by
      intro id
      rw [← callee_node_iff]
      constructor
      · rintro ⟨row, member, rfl⟩
        obtain ⟨least, bound, atLevel⟩ := (rowIds _ row.hop).mp ⟨row, member, rfl, rfl⟩
        have first : row.hop = 1 := Nat.le_antisymm bound least
        exact ⟨Nat.le_refl 1, first ▸ atLevel⟩
      · rintro ⟨-, atLevel⟩
        obtain ⟨row, member, same, -⟩ := (rowIds id 1).mpr ⟨Nat.le_refl 1, Nat.le_refl 1, atLevel⟩
        exact ⟨row, member, same⟩
    simp only [LanesAgree, ok, symbolDependencies, found]
    rw [forall_prop_of_true known]
    constructor
    · rintro ⟨sameNodes, -, -⟩ edge followed
      have link := exists_link_iff.mpr
        ⟨followed.target, Or.inr ⟨edge, followed, rfl⟩⟩
      exact ((dependency_node_iff described).mp ((sameNodes _).mp ((nodes _).mpr link))).2
    · intro resolved
      refine ⟨fun id => ?_, ?_, ?_⟩
      · rw [nodes, exists_link_iff, dependency_node_iff described]
        refine and_congr_right fun live => ⟨?_, Or.inl⟩
        rintro (otherwise_ | ⟨edge, followed, rfl⟩)
        · exact otherwise_
        · exact resolved edge followed
      · rw [unresolvedRows]
        exact unresolved_agree deeper described
      · intro row member reachable
        rw [unresolvedRows] at member
        obtain ⟨⟨key, row⟩, inside, rfl⟩ := List.mem_map.mp member
        obtain ⟨-, index, edge, current, source, reads⟩ := (getElem?_unresolvedCallees deeper key
          row).mp (Std.ExtTreeMap.mem_toList_iff_getElem?_eq_some.mp inside)
        obtain ⟨target, edgeId⟩ := ends_of_unresolvedCallee reads
        obtain ⟨live, links⟩ := exists_link_iff.mp reachable
        have otherwise_ : OtherwiseResolved records anchorId row.targetId := by
          rcases links with ordinary | ⟨other, followed, same⟩
          · exact ordinary
          · exact same ▸ resolved other followed
        obtain ⟨index', other, reported, same, notUnresolved, notDispatch⟩ := otherwise_
        obtain ⟨current', source', away⟩ := reported_iff.mp reported
        rw [← same] at live
        refine ⟨_, mem_calleeLinks.mpr ⟨index', other, current', source', away, notUnresolved, live,
          same.symm, rfl⟩, fun sameEdge => ?_⟩
        -- The same edge cannot be ordinary and unresolved.
        obtain rfl := current'.unique current (sameEdge.trans edgeId)
        obtain ⟨record, found', ordinary⟩ := live
        have outcome := dependencyOutcome_resolved_iff.mpr
          ⟨record, found', ordinary, notUnresolved, notDispatch, rfl⟩
        have classified := unresolvedCallee_row (liveRecords records) 0 away
        rw [reads, outcome] at classified
        contradiction
  · have unknown := known
    rw [← isSome_liveById, Option.not_isSome_iff_eq_none] at unknown
    simp only [LanesAgree, transitiveCallees_unknown known, symbolDependencies, unknown, known,
      false_imp_iff]

/-- A trait-dispatch call whose target is an ordinary symbol. -/
def dispatchEdge : EdgeRecord where
  id := "call"
  schemaVersion := 1
  label := .calls
  source := "caller"
  target := "method"
  resolution := some .unresolvedDispatch

def callerNode : GraphRecord := .node { id := "caller", kind := .symbol, schemaVersion := 1 }

def methodNode : GraphRecord := .node { id := "method", kind := .symbol, schemaVersion := 1 }

/-- The walk counts the target that both lanes report as unresolved. -/
theorem dispatchEdge_disagrees :
    ¬ LanesAgree [callerNode, methodNode, .edge dispatchEdge] "caller" := by
  have callees : (transitiveCallees [callerNode, methodNode, .edge dispatchEdge] "caller" 1).map
      (fun context => context.map fun context => context.rows.map fun row => row.record.id) =
      .ok (some ["method"]) := by
    decide
  have dependencies : (symbolDependencies [callerNode, methodNode, .edge dispatchEdge] "caller").map
      (fun context => context.dependencies) = some [] := by
    decide
  intro agree
  rw [LanesAgree] at agree
  generalize transitiveCallees [callerNode, methodNode, .edge dispatchEdge] "caller" 1 = result
    at callees agree
  generalize symbolDependencies [callerNode, methodNode, .edge dispatchEdge] "caller" = result'
    at dependencies agree
  rcases result with fault | (_ | context)
  · cases callees
  · cases callees
  · rcases result' with _ | other
    · cases dependencies
    · obtain ⟨row, member, same⟩ : ∃ row ∈ context.rows, row.record.id = "method" := by
        simp only [Except.map, Option.map_some, Except.ok.injEq, Option.some.injEq] at callees
        have : "method" ∈ context.rows.map fun row => row.record.id := by simp [callees]
        simpa using this
      obtain ⟨row', member', -⟩ := (agree.nodes "method").mp ⟨row, member, same⟩
      simp only [Option.map_some, Option.some.injEq] at dependencies
      simp [dependencies] at member'

end DepthOne

end Egregore
