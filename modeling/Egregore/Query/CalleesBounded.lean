import Egregore.Query.CalleesAgree
import Mathlib.Data.Set.Card
import Mathlib.Order.CompletePartialOrder

/-!
# What a bounded walk accounts for

The rows of `transitive_callees` are the callees up to the bound and its truncation diagnostic
counts the deeper ones, so that together they are all callees: `transitiveCallees_accounts`.
-/

namespace Egregore

open Base

section Callees

variable (records : List GraphRecord) (anchorId : String)

/-- A step that the walk may take: over a current edge under a dependency label that is not
unresolved, to a live record that is neither the anchor nor a diagnostic. -/
def TakesStep (step : TransitiveCalleePathStep) : Prop :=
  ∃ index edge, CurrentEdge records index edge ∧ edge.target ≠ anchorId ∧
    edge.resolution ≠ some .unresolved ∧
    (∃ record, (liveRecords records)[edge.target]? = some record ∧
      record.nodeKind? ≠ some .diagnostic) ∧
    step = ⟨edge.source, edge.id, edge.label.asStr, edge.resolution, edge.target⟩

/-- Steps that lead from the anchor to a record. -/
inductive CalleePath : List TransitiveCalleePathStep → String → Prop where
  | start : CalleePath [] anchorId
  | step {path : List TransitiveCalleePathStep} {source : String} {step : TransitiveCalleePathStep}
      (prior : CalleePath path source) (takes : TakesStep records anchorId step)
      (joined : step.sourceRecordId = source) : CalleePath (path ++ [step]) step.targetRecordId

/-- A callee of the anchor. -/
def IsCallee (id : String) : Prop := id ≠ anchorId ∧ ∃ path, CalleePath records anchorId path id

/-- The steps of a shortest path to a record. -/
def CalleeAt (hop : Nat) (id : String) : Prop :=
  (∃ path, CalleePath records anchorId path id ∧ path.length = hop) ∧
    ∀ path, CalleePath records anchorId path id → hop ≤ path.length

/-- How many records are that far away. -/
noncomputable def calleeCount (hop : Nat) : Nat := {id | CalleeAt records anchorId hop id}.ncard

variable {records anchorId}

theorem walk_iff_path {length : Nat} {id : String} :
    Walk (calleeLinks records anchorId) anchorId length id ↔
      ∃ path, CalleePath records anchorId path id ∧ path.length = length := by
  constructor
  · intro walk
    induction walk with
    | start => exact ⟨[], .start, rfl⟩
    | step _ link ih =>
        obtain ⟨path, isPath, rfl⟩ := ih
        obtain ⟨index, edge, current, source, away, resolved, live, rfl, -⟩ :=
          mem_calleeLinks.mp link
        exact ⟨_, .step isPath ⟨index, edge, current, away, resolved, live, rfl⟩ source, by simp⟩
  · rintro ⟨path, isPath, rfl⟩
    induction isPath with
    | start => exact .start
    | @step path source step prior takes joined ih =>
        obtain ⟨index, edge, current, away, resolved, live, rfl⟩ := takes
        rw [List.length_append, List.length_singleton]
        exact .step ih (mem_calleeLinks.mpr
          ⟨index, edge, current, joined, away, resolved, live, rfl, rfl⟩)

theorem calleeAt_iff {hop : Nat} {id : String} :
    CalleeAt records anchorId hop id ↔ AtLevel (calleeLinks records anchorId) anchorId hop id := by
  rw [CalleeAt, AtLevel, walk_iff_path]
  refine and_congr_right fun _ => ?_
  constructor
  · intro least shorter less walk
    obtain ⟨path, isPath, rfl⟩ := walk_iff_path.mp walk
    have := least path isPath
    omega
  · intro least path isPath
    by_contra shorter
    exact least path.length (by omega) (walk_iff_path.mpr ⟨path, isPath, rfl⟩)

/-- A callee is some number of steps away. -/
theorem isCallee_iff {id : String} :
    IsCallee records anchorId id ↔ ∃ hop, 1 ≤ hop ∧ CalleeAt records anchorId hop id := by
  constructor
  · rintro ⟨away, path, isPath⟩
    obtain ⟨hop, -, atLevel⟩ := exists_atLevel (walk_iff_path.mpr ⟨path, isPath, rfl⟩)
    refine ⟨hop, Nat.one_le_iff_ne_zero.mpr fun zero => away ?_, calleeAt_iff.mpr atLevel⟩
    subst zero
    exact atLevel_zero.mp atLevel
  · rintro ⟨hop, least, atHop⟩
    have atLevel := calleeAt_iff.mp atHop
    refine ⟨?_, atHop.1.imp fun _ => And.left⟩
    rintro rfl
    have := atLevel.unique (atLevel_zero.mpr rfl)
    omega

/-- A least chain is a path. -/
theorem path_of_leastChain {level : Nat} {id : String} {links : List (String × TransitiveEdgeRef)}
    (chain : LeastChain calleePointerOrder (calleeLinks records anchorId) anchorId level id links) :
    CalleePath records anchorId (links.map calleePathStep) id ∧ links.length = level := by
  induction chain with
  | start => exact ⟨.start, rfl⟩
  | @step level source target pointer links prior fresh least ih =>
      obtain ⟨index, edge, current, source, away, resolved, live, rfl, rfl⟩ :=
        mem_calleeLinks.mp least.link
      rw [List.map_append, List.length_append, List.length_singleton, ih.2]
      refine ⟨.step ih.1 ⟨index, edge, current, away, resolved, live, ?_⟩ rfl, rfl⟩
      rw [calleePathStep, source]

/-! ### Counting levels -/

/-- The targets of the slice's edges. -/
private def callTargets (records : List GraphRecord) : List String :=
  records.filterMap fun record =>
    match record with
    | .edge edge => some edge.target
    | _ => none

private theorem target_mem_callTargets {source target : String} {pointer : TransitiveEdgeRef}
    (link : (target, pointer) ∈ calleeLinks records anchorId source) :
    target ∈ callTargets records := by
  obtain ⟨index, edge, current, -, -, -, -, rfl, -⟩ := mem_calleeLinks.mp link
  exact List.mem_filterMap.mpr ⟨.edge edge, List.mem_of_getElem? current.line, rfl⟩

/-- No level lies deeper than there are records. -/
theorem CalleeAt.le_length {hop : Nat} {id : String} (atHop : CalleeAt records anchorId hop id) :
    hop ≤ records.length := by
  have bound : hop ≤ (callTargets records).length := (calleeAt_iff.mp atHop).le_length
    fun source target pointer link => target_mem_callTargets link
  exact bound.trans (List.length_filterMap_le _ _)

theorem finite_callees : {id | IsCallee records anchorId id}.Finite := by
  refine (List.finite_toSet (callTargets records)).subset fun id isCallee => ?_
  obtain ⟨hop, least, atHop⟩ := isCallee_iff.mp isCallee
  obtain ⟨before, rfl⟩ : ∃ before, hop = before + 1 := ⟨hop - 1, by omega⟩
  obtain ⟨source, pointer, -, link⟩ := (calleeAt_iff.mp atHop).exists_prior
  exact target_mem_callTargets link

theorem ncard_eq_length {ids : List String} (nodup : ids.Nodup) {members : Set String}
    (same : ∀ id, id ∈ ids ↔ id ∈ members) : members.ncard = ids.length := by
  have coe : members = (ids.toFinset : Set String) := by
    ext id
    rw [List.coe_toFinset, Set.mem_ofPred_eq, same]
  rw [coe, Set.ncard_coe_finset, List.toFinset_card_of_nodup nodup]

variable (records anchorId) in
/-- The callees between two depths. -/
def calleesBetween (above upTo : Nat) : Set String :=
  {id | ∃ hop, above < hop ∧ hop ≤ upTo ∧ CalleeAt records anchorId hop id}

theorem finite_calleesBetween {above upTo : Nat} :
    (calleesBetween records anchorId above upTo).Finite :=
  finite_callees.subset fun _ ⟨hop, least, _, atHop⟩ =>
    isCallee_iff.mpr ⟨hop, by omega, atHop⟩

theorem disjoint_calleesBetween {above middle middle' upTo : Nat} (apart : middle ≤ middle') :
    Disjoint (calleesBetween records anchorId above middle)
      (calleesBetween records anchorId middle' upTo) := by
  rw [Set.disjoint_left]
  rintro id ⟨hop, -, bound, atHop⟩ ⟨hop', least, -, atHop'⟩
  have := (calleeAt_iff.mp atHop).unique (calleeAt_iff.mp atHop')
  omega

/-- Callees between two depths, counted depth by depth. -/
theorem ncard_calleesBetween (above depths : Nat) :
    (calleesBetween records anchorId above (above + depths)).ncard =
      ((List.range' (above + 1) depths).map (calleeCount records anchorId)).sum := by
  induction depths with
  | zero =>
      have empty : calleesBetween records anchorId above (above + 0) = ∅ := by
        ext id
        simp only [calleesBetween, Set.mem_ofPred_eq, Set.mem_empty_iff_false, iff_false]
        rintro ⟨hop, least, bound, -⟩
        omega
      rw [empty]
      simp
  | succ depths ih =>
      have last : calleesBetween records anchorId (above + depths) (above + depths + 1) =
          {id | CalleeAt records anchorId (above + depths + 1) id} := by
        ext id
        constructor
        · rintro ⟨hop, least, bound, atHop⟩
          obtain rfl : hop = above + depths + 1 := by omega
          exact atHop
        · exact fun atHop => ⟨_, by omega, Nat.le_refl _, atHop⟩
      have split : calleesBetween records anchorId above (above + (depths + 1)) =
          calleesBetween records anchorId above (above + depths) ∪
            calleesBetween records anchorId (above + depths) (above + depths + 1) := by
        ext id
        constructor
        · rintro ⟨hop, least, bound, atHop⟩
          rcases Nat.lt_or_ge (above + depths) hop with deep | shallow
          · exact Or.inr ⟨hop, deep, by omega, atHop⟩
          · exact Or.inl ⟨hop, least, shallow, atHop⟩
        · rintro (⟨hop, least, bound, atHop⟩ | ⟨hop, least, bound, atHop⟩)
          · exact ⟨hop, least, by omega, atHop⟩
          · exact ⟨hop, by omega, by omega, atHop⟩
      rw [split, Set.ncard_union_eq (disjoint_calleesBetween (Nat.le_refl _))
        finite_calleesBetween finite_calleesBetween, ih, last, List.range'_1_concat,
        List.map_append, List.sum_append, List.map_singleton, List.sum_singleton,
        Nat.add_right_comm above 1 depths]
      rfl

/-- The counting loop goes through the levels that have nodes. -/
theorem droppedDepths_spec (fuel : Nat) {depth : Nat}
    {search : LevelSearch String TransitiveEdgeRef byteOrder}
    (described : search.Describes calleePointerOrder (calleeLinks records anchorId) anchorId depth)
    (enough : records.length < fuel + depth) :
    ∃ depths, droppedDepths records (liveRecords records) anchorId fuel depth search =
        (List.range' (depth + 1) depths).map (fun hop => ⟨hop, calleeCount records anchorId hop⟩) ∧
      ∀ hop, depth < hop → ((∃ id, CalleeAt records anchorId hop id) ↔ hop ≤ depth + depths) := by
  induction fuel generalizing depth search with
  | zero =>
      refine ⟨0, rfl, fun hop deeper => ⟨fun ⟨id, atHop⟩ => ?_, fun bound => by omega⟩⟩
      have := atHop.le_length
      omega
  | succ fuel ih =>
      have next := described.advance
      rw [droppedDepths]
      generalize advanced : search.advance calleePointerOrder
        (calleeDiscoveries records (liveRecords records) anchorId) = later at next
      have nodup : later.frontier.Nodup := by
        rw [← advanced]
        exact Std.ExtTreeMap.nodup_keys
      have members : ∀ id, id ∈ later.frontier ↔ CalleeAt records anchorId (depth + 1) id :=
        fun id => (next.frontier id).trans calleeAt_iff.symm
      by_cases empty : later.frontier = []
      · simp only [List.isEmpty_iff, empty, if_true]
        have spent : ∀ id, ¬ AtLevel (calleeLinks records anchorId) anchorId (depth + 1) id := by
          intro id atLevel
          have member := (next.frontier id).mpr atLevel
          rw [empty] at member
          cases member
        refine ⟨0, rfl, fun hop deeper => ⟨fun ⟨id, atHop⟩ => ?_, fun bound => by omega⟩⟩
        exact absurd (calleeAt_iff.mp atHop) (not_atLevel_of_spent spent deeper)
      · simp only [List.isEmpty_iff, empty, if_false]
        obtain ⟨depths, listed, levels⟩ := ih next (by omega)
        refine ⟨depths + 1, ?_, fun hop deeper => ?_⟩
        · rw [List.range'_succ, List.map_cons, listed]
          have count : calleeCount records anchorId (depth + 1) = later.frontier.length :=
            ncard_eq_length nodup members
          rw [count]
        · rcases Nat.eq_or_lt_of_le deeper with first | beyond
          · obtain ⟨id, member⟩ := List.exists_mem_of_ne_nil _ empty
            subst first
            exact ⟨fun _ => by omega, fun _ => ⟨id, (members id).mp member⟩⟩
          · rw [levels hop beyond]
            omega

/-! ### Rows and truncation -/

variable (records anchorId) in
/-- The answer accounts for every callee, by a row or in the truncation diagnostic. -/
structure AccountsFor (maxDepth : Nat) (context : TransitiveCalleesContext) : Prop where
  rows : ∀ id hop, (∃ row ∈ context.rows, row.record.id = id ∧ row.hop = hop) ↔
    1 ≤ hop ∧ hop ≤ maxDepth ∧ CalleeAt records anchorId hop id
  once : (context.rows.map fun row => row.record.id).Nodup
  paths : ∀ row ∈ context.rows, CalleePath records anchorId row.path row.record.id ∧
    row.path.length = row.hop
  untruncated : context.truncation = none ↔
    ∀ hop id, CalleeAt records anchorId hop id → hop ≤ maxDepth
  /-- The diagnostic lists the deeper depths, each with the number of its callees. -/
  truncated : ∀ truncation, context.truncation = some truncation →
    truncation.maxDepth = maxDepth ∧
    (∃ depths, truncation.droppedFrontier = (List.range' (maxDepth + 1) depths).map
        (fun hop => ⟨hop, calleeCount records anchorId hop⟩) ∧
      ∀ hop, maxDepth < hop →
        ((∃ id, CalleeAt records anchorId hop id) ↔ hop ≤ maxDepth + depths)) ∧
    truncation.droppedTotal =
      (truncation.droppedFrontier.map TransitiveCalleeDroppedDepth.count).sum ∧
    truncation.droppedTotal + context.rows.length =
      {id | IsCallee records anchorId id}.ncard

/-- A row is that of its node: a least chain leads to it. -/
private theorem row_spec {walk : CalleeWalk} (described : walk.Describes records anchorId)
    {node : String} {hop : Nat} {row : TransitiveCalleeRow}
    (discovered : walk.hopOf[node]? = some hop)
    (made : calleeRow (liveRecords records) anchorId walk.search (node, hop) = .ok row) :
    row.record.id = node ∧ row.hop = hop ∧ CalleePath records anchorId row.path node ∧
      row.path.length = hop := by
  obtain ⟨least, bound, atHop⟩ := (described.hopOf node hop).mp discovered
  obtain ⟨links, chained, chain⟩ := described.search.chainTo parent_of_mem_calleeLinks atHop bound
    (Nat.le_refl _)
  obtain ⟨isPath, length⟩ := path_of_leastChain chain
  rw [calleeRow] at made
  cases live : (liveRecords records)[node]? with
  | none =>
      rw [live] at made
      cases made
  | some record =>
      simp only [live, chained, Except.ok.injEq] at made
      subst made
      exact ⟨id_of_liveRecords live, rfl, isPath, by rw [List.length_map, length]⟩

/-- The rows are those of the entries, in their order. -/
private theorem ids_of_rows {byId : StrMap GraphRecord}
    {search : LevelSearch String TransitiveEdgeRef byteOrder} {entries : List (String × Nat)}
    {rows : List TransitiveCalleeRow}
    (made : List.Forall₂ (fun entry row => calleeRow byId anchorId search entry = .ok row)
      entries rows)
    (named : ∀ (id : String) (record : GraphRecord), byId[id]? = some record → record.id = id) :
    rows.map (fun row => row.record.id) = entries.map Prod.fst := by
  induction made with
  | nil => rfl
  | @cons entry row entries rows first _ ih =>
      rw [List.map_cons, List.map_cons, ih]
      congr 1
      rw [calleeRow] at first
      cases live : byId[entry.1]? with
      | none =>
          rw [live] at first
          cases first
      | some record =>
          rw [live] at first
          simp only at first
          split at first
          · cases first
          · cases first
            exact named entry.1 record live

/-- The diagnostic counts the levels below the bound, if there are any. -/
private theorem truncation_spec {walk : CalleeWalk} (described : walk.Describes records anchorId)
    {maxDepth : Nat}
    (ended : walk.depth = maxDepth ∨ walk.depth < maxDepth ∧
      ∀ node, ¬ AtLevel (calleeLinks records anchorId) anchorId walk.depth node) :
    ∃ depths, (∀ hop, maxDepth < hop →
        ((∃ id, CalleeAt records anchorId hop id) ↔ hop ≤ maxDepth + depths)) ∧
      calleeTruncation records (liveRecords records) anchorId walk maxDepth =
        if depths = 0 then none
        else some ⟨maxDepth,
          (List.range' (maxDepth + 1) depths).map fun hop => ⟨hop, calleeCount records anchorId hop⟩,
          ((List.range' (maxDepth + 1) depths).map (calleeCount records anchorId)).sum⟩ := by
  by_cases spent : walk.search.frontier = []
  · have none_ : ∀ node, ¬ AtLevel (calleeLinks records anchorId) anchorId walk.depth node := by
      intro node atLevel
      have member := (described.search.frontier node).mpr atLevel
      rw [spent] at member
      cases member
    refine ⟨0, fun hop deeper => ⟨fun ⟨id, atHop⟩ => ?_, fun bound => by omega⟩, ?_⟩
    · exact absurd (calleeAt_iff.mp atHop) (not_atLevel_of_spent none_ (by omega))
    · rw [calleeTruncation, spent]
      rfl
  · obtain rfl : walk.depth = maxDepth := by
      rcases ended with atBound | ⟨-, none_⟩
      · exact atBound
      · obtain ⟨node, member⟩ := List.exists_mem_of_ne_nil _ spent
        exact absurd ((described.search.frontier node).mp member) (none_ node)
    obtain ⟨depths, listed, levels⟩ :=
      droppedDepths_spec (records.length + 1) described.search (by omega)
    refine ⟨depths, levels, ?_⟩
    have counts : ((List.range' (walk.depth + 1) depths).map fun hop =>
        (⟨hop, calleeCount records anchorId hop⟩ : TransitiveCalleeDroppedDepth)).map
          TransitiveCalleeDroppedDepth.count =
        (List.range' (walk.depth + 1) depths).map (calleeCount records anchorId) := by
      rw [List.map_map]
      rfl
    simp only [calleeTruncation, List.isEmpty_iff, spent, if_false, listed, counts]
    by_cases zero : depths = 0
    · subst zero
      simp
    · -- The first of the levels has a node.
      obtain ⟨less, rfl⟩ : ∃ less, depths = less + 1 := ⟨depths - 1, by omega⟩
      obtain ⟨id, atHop⟩ := (levels (walk.depth + 1) (by omega)).mpr (by omega)
      have finite : {id | CalleeAt records anchorId (walk.depth + 1) id}.Finite :=
        finite_callees.subset fun id atHop => isCallee_iff.mpr ⟨_, by omega, atHop⟩
      have positive : 0 < calleeCount records anchorId (walk.depth + 1) :=
        (Set.ncard_pos finite).mpr ⟨id, atHop⟩
      rw [if_neg zero, if_pos]
      rw [List.range'_succ, List.map_cons, List.sum_cons]
      omega

/-- From a known anchor the walk accounts for every callee; an unknown anchor has no answer. -/
theorem transitiveCallees_accounts (records : List GraphRecord) (anchorId : String)
    (maxDepth : Nat) :
    (¬ Known records anchorId → transitiveCallees records anchorId maxDepth = .ok none) ∧
    (Known records anchorId → ∃ context,
      transitiveCallees records anchorId maxDepth = .ok (some context) ∧
        AccountsFor records anchorId maxDepth context) := by
  refine ⟨fun unknown => transitiveCallees_unknown unknown maxDepth, fun known => ?_⟩
  obtain ⟨context, answered, levels, -⟩ := transitiveCallees_ok known maxDepth
  refine ⟨context, answered, ?_⟩
  obtain ⟨anchor, found⟩ := Option.isSome_iff_exists.mp (isSome_liveById.mpr known)
  have start : CalleeWalk.Describes records anchorId { search := LevelSearch.start anchorId } :=
    CalleeWalk.start_describes
  obtain ⟨described, ended⟩ := start.run maxDepth
  simp only [Nat.zero_add] at ended
  rw [← calleeWalk] at described ended
  obtain ⟨depths, deeper, truncated⟩ := truncation_spec described ended
  simp only [transitiveCallees, found] at answered
  generalize calleeWalk records (liveRecords records) anchorId maxDepth = walk at *
  cases mapped : walk.hopOf.toList.mapM (calleeRow (liveRecords records) anchorId walk.search) with
  | error failure =>
      rw [mapped] at answered
      cases answered
  | ok rows =>
      rw [mapped] at answered
      simp only [bind, Except.bind, pure, Except.pure, Except.ok.injEq,
        Option.some.injEq] at answered
      subst answered
      have sorted : (rows.insertionSort calleeRowBefore).Perm rows := List.perm_insertionSort _ rows
      have once : ((rows.insertionSort calleeRowBefore).map fun row => row.record.id).Nodup := by
        rw [(sorted.map _).nodup_iff, ids_of_rows (forall₂_of_mapM_ok mapped)
          fun _ _ => id_of_liveRecords]
        exact List.pairwise_map.mpr ((Std.ExtTreeMap.distinct_keys_toList).imp fun apart same =>
          apart (by rw [same]; exact Std.ReflCmp.compare_self))
      have shallow : (calleesBetween records anchorId 0 maxDepth).ncard =
          (rows.insertionSort calleeRowBefore).length := by
        rw [ncard_eq_length once, List.length_map]
        intro id
        rw [List.mem_map]
        constructor
        · rintro ⟨row, member, rfl⟩
          obtain ⟨least, bound, atLevel⟩ := (levels _ _).mp ⟨row, member, rfl, rfl⟩
          exact ⟨_, least, bound, calleeAt_iff.mpr atLevel⟩
        · rintro ⟨hop, least, bound, atHop⟩
          obtain ⟨row, member, same, -⟩ := (levels id hop).mpr ⟨least, bound, calleeAt_iff.mp atHop⟩
          exact ⟨row, member, same⟩
      refine ⟨fun id hop => ?_, once, fun row member => ?_, ?_, ?_⟩
      · rw [levels, calleeAt_iff]
      · obtain ⟨⟨node, hop⟩, inside, ok⟩ :=
          (mem_of_mapM_ok mapped row).mp (sorted.mem_iff.mp member)
        obtain ⟨rfl, rfl, isPath, length⟩ :=
          row_spec described (Std.ExtTreeMap.mem_toList_iff_getElem?_eq_some.mp inside) ok
        exact ⟨isPath, length⟩
      · rw [truncated]
        split
        · next zero =>
            subst zero
            refine ⟨fun _ hop id atHop => ?_, fun _ => rfl⟩
            by_contra beyond
            have := (deeper hop (by omega)).mp ⟨id, atHop⟩
            omega
        · next some_ =>
            simp only [reduceCtorEq, false_iff]
            intro bounded
            obtain ⟨id, atHop⟩ := (deeper (maxDepth + 1) (by omega)).mpr (by omega)
            have := bounded _ _ atHop
            omega
      · intro truncation reported
        rw [truncated] at reported
        split at reported
        · cases reported
        obtain rfl := Option.some.inj reported
        have counts : ((List.range' (maxDepth + 1) depths).map fun hop =>
            (⟨hop, calleeCount records anchorId hop⟩ : TransitiveCalleeDroppedDepth)).map
              TransitiveCalleeDroppedDepth.count =
            (List.range' (maxDepth + 1) depths).map (calleeCount records anchorId) := by
          rw [List.map_map]
          rfl
        refine ⟨rfl, ⟨depths, rfl, deeper⟩, by rw [counts], ?_⟩
        have all : {id | IsCallee records anchorId id} =
            calleesBetween records anchorId 0 maxDepth ∪
              calleesBetween records anchorId maxDepth (maxDepth + depths) := by
          ext id
          rw [Set.mem_ofPred_eq, isCallee_iff]
          constructor
          · rintro ⟨hop, least, atHop⟩
            rcases Nat.lt_or_ge maxDepth hop with deep | within
            · exact Or.inr ⟨hop, deep, (deeper hop deep).mp ⟨id, atHop⟩, atHop⟩
            · exact Or.inl ⟨hop, least, within, atHop⟩
          · rintro (⟨hop, least, -, atHop⟩ | ⟨hop, deep, -, atHop⟩)
            · exact ⟨hop, least, atHop⟩
            · exact ⟨hop, by omega, atHop⟩
        rw [all, Set.ncard_union_eq (disjoint_calleesBetween (Nat.le_refl _))
          finite_calleesBetween finite_calleesBetween, shallow, ncard_calleesBetween]
        exact Nat.add_comm _ _

end Callees

/-- What a view of an answer shows, the answer has. -/
theorem exists_context_of_map {α β : Type} {result : Except String (Option α)} {view : α → β}
    {shown : β} (answered : result.map (fun context => context.map view) = .ok (some shown)) :
    ∃ context, result = .ok (some context) ∧ view context = shown := by
  rcases result with fault | (_ | context)
  · cases answered
  · cases answered
  · exact ⟨context, rfl, Option.some.inj (Except.ok.inj answered)⟩

def calledSymbol (id : String) : GraphRecord :=
  .node { id := id, kind := .symbol, schemaVersion := 1 }

def chainCall (source target : String) : GraphRecord :=
  .edge { dispatchEdge with
    id := source ++ "->" ++ target
    source := source
    target := target
    resolution := some .resolved }

/-- Calls three deep, with one aside and one back to the start. -/
def callChain : List GraphRecord :=
  ["main", "parse", "lex", "read", "report"].map calledSymbol ++
    [chainCall "main" "parse", chainCall "parse" "lex", chainCall "lex" "read",
     chainCall "main" "report", chainCall "read" "main"]

/-- Within two calls of the start, the third is left to the truncation. -/
theorem callChain_accounts :
    ∃ context, transitiveCallees callChain "main" 2 = .ok (some context) ∧
      AccountsFor callChain "main" 2 context ∧
      context.rows.map (fun row => (row.record.id, row.hop)) =
        [("parse", 1), ("report", 1), ("lex", 2)] ∧
      context.truncation.isSome = true := by
  have shown : (transitiveCallees callChain "main" 2).map (fun context =>
      context.map fun context => (context.rows.map fun row => (row.record.id, row.hop),
        context.truncation.isSome)) =
      .ok (some ([("parse", 1), ("report", 1), ("lex", 2)], true)) := by
    decide
  obtain ⟨context, answered, rows⟩ := exists_context_of_map shown
  obtain ⟨context', answered', accounts⟩ :=
    (transitiveCallees_accounts callChain "main" 2).2 (isSome_liveById.mp (by decide))
  obtain rfl : context = context' := by
    rw [answered'] at answered
    simpa using answered.symm
  exact ⟨context, answered, accounts, congrArg Prod.fst rows, congrArg Prod.snd rows⟩

end Egregore
