import Egregore.Query.CalleesBounded
import Egregore.Query.TransitiveCallers

/-!
# Callers against callees

The rows of `transitive_callers` are the nodes of each level of the walk against the edges, with a
shortest path to the anchor. A path of calls and references that the walk along the edges reports
is a path for the other walk too; the labels that only the outbound walk follows are the
difference. `callers_of_callees` is the round trip of the two walks, for any bound.
-/

namespace Egregore

open Base

variable {records : List GraphRecord} {anchorId : String}

section Edges

/-- A line that is the last version of a live call or reference. -/
structure LatestCall (records : List GraphRecord) (index : Nat) (edge : EdgeRecord) : Prop where
  line : records[index]? = some (.edge edge)
  latest : (Liveness.new records).isLatestEdgeVersion edge.id index = true
  live : (Liveness.new records).deleted edge.id = false
  label : transitiveCallerLabels.contains edge.label = true

theorem LatestCall.unique {index other : Nat} {edge edge' : EdgeRecord}
    (current : LatestCall records index edge) (current' : LatestCall records other edge')
    (same : edge.id = edge'.id) : edge = edge' := by
  have latest := current.latest
  have latest' := current'.latest
  simp only [Liveness.isLatestEdgeVersion, decide_eq_true_eq] at latest latest'
  rw [same, latest', Option.some.injEq] at latest
  have line := current.line
  rw [← latest, current'.line, Option.some.injEq, GraphRecord.edge.injEq] at line
  exact line.symm

/-- The entry of an edge under its target. -/
def callerRefOf (edge : EdgeRecord) : TransitiveEdgeRef :=
  (edge.source, edge.id, edge.label.asStr, edge.resolution)

private theorem mem_inboundCallers {target : String} {reference : TransitiveEdgeRef} :
    reference ∈ (inboundCallers records).getD target [] ↔
      ∃ index edge, LatestCall records index edge ∧ edge.target = target ∧
        reference = callerRefOf edge := by
  rw [inboundCallers, getD_foldl_pushEntry]
  simp only [List.mem_map, List.mem_filter, List.mem_filterMap, decide_eq_true_eq]
  constructor
  · rintro ⟨⟨key, reference'⟩, ⟨⟨⟨record, index⟩, member, found⟩, rfl⟩, rfl⟩
    cases record with
    | node record => simp [callerEdge] at found
    | tombstone record => simp [callerEdge] at found
    | edge edge =>
        simp only [callerEdge] at found
        split at found
        · next holds =>
            obtain ⟨rfl, rfl⟩ := Prod.mk.inj (Option.some.inj found)
            exact ⟨index, edge, ⟨List.mem_zipIdx_iff_getElem?.mp member, holds.1, holds.2.1,
              holds.2.2⟩, rfl, rfl⟩
        · contradiction
  · rintro ⟨index, edge, current, rfl, rfl⟩
    exact ⟨(edge.target, callerRefOf edge), ⟨⟨(.edge edge, index),
      List.mem_zipIdx_iff_getElem?.mpr current.line,
      if_pos ⟨current.latest, current.live, current.label⟩⟩, rfl⟩, rfl⟩

/-- The inbound edges of a node: nothing is lost to the deduplication. -/
theorem mem_callersInto {target : String} {reference : TransitiveEdgeRef} :
    reference ∈ callersInto records target ↔
      ∃ index edge, LatestCall records index edge ∧ edge.target = target ∧
        reference = callerRefOf edge := by
  rw [← mem_inboundCallers]
  refine mem_dedupBy_of_perm (List.perm_insertionSort _ _) fun kept isKept other isOther same => ?_
  obtain ⟨index, edge, current, -, rfl⟩ := mem_inboundCallers.mp isKept
  obtain ⟨index', edge', current', -, rfl⟩ := mem_inboundCallers.mp isOther
  rw [current.unique current' (calleeOrder_eq_iff.mp same).2]

/-- The links of the walk. -/
abbrev callerLinks (records : List GraphRecord) : String → List (String × TransitiveEdgeRef) :=
  callerDiscoveries records (liveRecords records)

theorem discoverCaller_ref (byId : StrMap GraphRecord) (node : String) (edge : EdgeRecord) :
    discoverCaller byId node (callerRefOf edge) =
      if edge.source ∈ byId then
        some (edge.source, edge.id, node, edge.label.asStr, edge.resolution)
      else none :=
  rfl

/-- A link of the walk. -/
theorem mem_callerLinks {node source : String} {pointer : TransitiveEdgeRef} :
    (source, pointer) ∈ callerLinks records node ↔
      ∃ index edge, LatestCall records index edge ∧ edge.target = node ∧ edge.source = source ∧
        source ∈ liveRecords records ∧
        pointer = (edge.id, node, edge.label.asStr, edge.resolution) := by
  rw [callerLinks, callerDiscoveries, List.mem_filterMap]
  constructor
  · rintro ⟨reference, member, found⟩
    obtain ⟨index, edge, current, target, rfl⟩ := mem_callersInto.mp member
    rw [discoverCaller_ref] at found
    by_cases live : edge.source ∈ liveRecords records
    · rw [if_pos live] at found
      obtain ⟨rfl, rfl⟩ := Prod.mk.inj (Option.some.inj found)
      exact ⟨index, edge, current, target, rfl, live, rfl⟩
    · rw [if_neg live] at found
      cases found
  · rintro ⟨index, edge, current, target, rfl, live, rfl⟩
    exact ⟨callerRefOf edge, mem_callersInto.mpr ⟨index, edge, current, target, rfl⟩, if_pos live⟩

theorem parent_of_mem_callerLinks (node source : String) (pointer : TransitiveEdgeRef)
    (member : (source, pointer) ∈ callerLinks records node) : pointer.2.1 = node := by
  obtain ⟨index, edge, -, -, -, -, rfl⟩ := mem_callerLinks.mp member
  rfl

end Edges

section Paths

/-- Steps over current calls and references that lead from one record to another. -/
inductive CallPath (records : List GraphRecord) : List TransitivePathStep → String → String → Prop
  | nil {id : String} : CallPath records [] id id
  | cons {path : List TransitivePathStep} {index : Nat} {edge : EdgeRecord} {goal : String}
      (current : LatestCall records index edge) (onward : CallPath records path edge.target goal) :
      CallPath records
        (⟨edge.source, edge.id, edge.label.asStr, edge.resolution, edge.target⟩ :: path)
        edge.source goal

/-- A least chain, read from its end, is a path to the anchor. -/
theorem callPath_of_leastChain {level : Nat} {id : String}
    {links : List (String × TransitiveEdgeRef)}
    (chain : LeastChain calleePointerOrder (callerLinks records) anchorId level id links) :
    CallPath records (links.reverse.map callerPathStep) id anchorId ∧ links.length = level := by
  induction chain with
  | start => exact ⟨.nil, rfl⟩
  | @step level source target pointer links prior fresh least ih =>
      obtain ⟨index, edge, current, rfl, rfl, live, rfl⟩ := mem_callerLinks.mp least.link
      rw [List.reverse_append, List.reverse_singleton, List.singleton_append, List.map_cons,
        List.length_append, List.length_singleton, ih.2]
      exact ⟨.cons current ih.1, rfl⟩

theorem contains_of_asStr {label : EdgeLabel}
    (named : label.asStr = EdgeLabel.calls.asStr ∨ label.asStr = EdgeLabel.references.asStr) :
    transitiveCallerLabels.contains label = true := by
  revert named
  cases label <;> decide

/-- A path through live records is a walk against the edges. -/
theorem walk_of_calleePath {path : List TransitiveCalleePathStep} {id : String}
    (known : anchorId ∈ liveRecords records) (isPath : CalleePath records anchorId path id)
    (labels : ∀ step ∈ path, step.edgeLabel = EdgeLabel.calls.asStr ∨
      step.edgeLabel = EdgeLabel.references.asStr) :
    Walk (callerLinks records) id path.length anchorId ∧ id ∈ liveRecords records := by
  induction isPath with
  | start => exact ⟨.start, known⟩
  | @step path source step prior takes joined ih =>
      obtain ⟨index, edge, current, -, -, ⟨record, live, -⟩, rfl⟩ := takes
      obtain ⟨walk, sourceLive⟩ := ih fun step member =>
        labels step (List.mem_append_left _ member)
      have label : transitiveCallerLabels.contains edge.label = true := by
        exact contains_of_asStr (labels _ (List.mem_append_right _ List.mem_cons_self))
      obtain rfl : edge.source = source := joined
      have link : (edge.source, edge.id, edge.target, edge.label.asStr, edge.resolution) ∈
          callerLinks records edge.target :=
        mem_callerLinks.mpr ⟨index, edge, ⟨current.line, current.latest, current.live, label⟩, rfl,
          rfl, sourceLive, rfl⟩
      rw [List.length_append, List.length_singleton]
      exact ⟨walk.of_link link, Std.ExtTreeMap.isSome_getElem?_iff_mem.mp (by rw [live]; rfl)⟩

end Paths

section Rows

variable {maxDepth : Nat}

theorem toBoundedSearch_run (left : Nat) (walk : CallerWalk) :
    (CallerWalk.run records (liveRecords records) left walk).toBoundedSearch =
      BoundedSearch.run calleePointerOrder (callerLinks records) left walk.toBoundedSearch := by
  induction left generalizing walk with
  | zero => rfl
  | succ left ih =>
      rw [CallerWalk.run, BoundedSearch.run]
      split
      · rfl
      · rw [ih]
        rfl

/-- The walk never panics. Its rows are the nodes of each level up to the bound, with a shortest
path of calls and references to the anchor. -/
theorem transitiveCallers_ok (known : anchorId ∈ liveRecords records) (maxDepth : Nat) :
    ∃ context, transitiveCallers records anchorId maxDepth = .ok (some context) ∧
      (∀ id hop, (∃ row ∈ context.rows, row.record.id = id ∧ row.hop = hop) ↔
        1 ≤ hop ∧ hop ≤ maxDepth ∧ AtLevel (callerLinks records) anchorId hop id) ∧
      ∀ row ∈ context.rows, CallPath records row.path row.record.id anchorId ∧
        row.path.length = row.hop := by
  obtain ⟨anchor, found⟩ := Option.isSome_iff_exists.mp
    (Std.ExtTreeMap.isSome_getElem?_iff_mem.mpr known)
  let first : BoundedSearch String TransitiveEdgeRef byteOrder :=
    { search := LevelSearch.start anchorId }
  have start : first.Describes calleePointerOrder (callerLinks records) anchorId :=
    BoundedSearch.start_describes
  have described := (start.run maxDepth).1
  have hops : ∀ node hop,
      (BoundedSearch.run calleePointerOrder (callerLinks records) maxDepth first).hopOf[node]? =
          some hop ↔
        1 ≤ hop ∧ hop ≤ maxDepth ∧ AtLevel (callerLinks records) anchorId hop node :=
    BoundedSearch.hopOf_run maxDepth
  have bounded : (callerWalk records (liveRecords records) anchorId maxDepth).toBoundedSearch =
      BoundedSearch.run calleePointerOrder (callerLinks records) maxDepth first :=
    toBoundedSearch_run maxDepth _
  simp only [transitiveCallers, found]
  generalize callerWalk records (liveRecords records) anchorId maxDepth = walk at bounded ⊢
  rw [← bounded] at described hops
  -- Every discovered node has a live record and a chain of pointers.
  have row : ∀ node hop, walk.hopOf[node]? = some hop →
      ∃ row, callerRow (liveRecords records) anchorId walk.search (node, hop) = .ok row ∧
        row.record.id = node ∧ row.hop = hop ∧ CallPath records row.path node anchorId ∧
        row.path.length = hop := by
    intro node hop discovered
    obtain ⟨least, bound, atHop⟩ := (described.hopOf node hop).mp discovered
    obtain ⟨before, rfl⟩ : ∃ before, hop = before + 1 := ⟨hop - 1, by omega⟩
    obtain ⟨source, pointer, -, link⟩ := atHop.exists_prior
    obtain ⟨-, edge, -, -, -, live, -⟩ := mem_callerLinks.mp link
    obtain ⟨record, live⟩ := Option.isSome_iff_exists.mp
      (Std.ExtTreeMap.isSome_getElem?_iff_mem.mpr live)
    obtain ⟨links, chained, chain⟩ := described.search.chainTo parent_of_mem_callerLinks atHop bound
      (Nat.le_refl _)
    obtain ⟨isPath, length⟩ := callPath_of_leastChain chain
    exact ⟨_, by simp only [callerRow, live, chained]; rfl, id_of_liveRecords live, rfl, isPath,
      by simpa using length⟩
  obtain ⟨rows, mapped, made, kept⟩ := BoundedSearch.exists_rows row
  rw [mapped]
  refine ⟨_, rfl, fun id hop => ?_, fun found member => ?_⟩
  · simp only [List.mem_insertionSort]
    constructor
    · rintro ⟨found, member, rfl, rfl⟩
      obtain ⟨node, hop, discovered, rfl, rfl, -⟩ := made found member
      exact (hops _ _).mp discovered
    · intro within
      obtain ⟨found, member, same, same', -⟩ := kept id hop ((hops id hop).mpr within)
      exact ⟨found, member, same, same'⟩
  · obtain ⟨node, hop, -, rfl, rfl, isPath, length⟩ :=
      made found ((List.mem_insertionSort _).mp member)
    exact ⟨isPath, length⟩

/-- Where the outbound walk reports a record by calls and references alone, the inbound walk from
that record reports the anchor, no farther away. -/
theorem callers_of_callees (records : List GraphRecord) (source target : String) (maxDepth : Nat)
    {context : TransitiveCalleesContext} {row : TransitiveCalleeRow}
    (answered : transitiveCallees records source maxDepth = .ok (some context))
    (reported : row ∈ context.rows) (isTarget : row.record.id = target)
    (labels : ∀ step ∈ row.path, step.edgeLabel = EdgeLabel.calls.asStr ∨
      step.edgeLabel = EdgeLabel.references.asStr) :
    ∃ callers, transitiveCallers records target maxDepth = .ok (some callers) ∧
      ∃ found ∈ callers.rows, found.record.id = source ∧ found.hop ≤ row.hop ∧
        CallPath records found.path source target ∧ found.path.length = found.hop := by
  have known : Known records source := by
    by_contra unknown
    rw [transitiveCallees_unknown unknown] at answered
    cases answered
  obtain ⟨context', answered', accounts⟩ :=
    (transitiveCallees_accounts records source maxDepth).2 known
  obtain rfl : context = context' := by
    rw [answered'] at answered
    simpa using answered.symm
  have sourceLive : source ∈ liveRecords records :=
    Std.ExtTreeMap.isSome_getElem?_iff_mem.mp (isSome_liveById.mpr known)
  obtain ⟨isPath, length⟩ := accounts.paths row reported
  rw [isTarget] at isPath
  obtain ⟨walk, targetLive⟩ := walk_of_calleePath sourceLive isPath labels
  obtain ⟨least, bound, atHop⟩ := (accounts.rows _ _).mp ⟨row, reported, isTarget, rfl⟩
  obtain ⟨hop, shorter, atLevel⟩ := exists_atLevel walk
  have apart : target ≠ source := by
    rintro rfl
    have := (calleeAt_iff.mp atHop).unique (atLevel_zero.mpr rfl)
    omega
  have positive : 1 ≤ hop := by
    by_contra none
    obtain rfl : hop = 0 := by omega
    exact apart (atLevel_zero.mp atLevel).symm
  obtain ⟨callers, answer, rows, paths⟩ := transitiveCallers_ok targetLive maxDepth
  obtain ⟨found, member, rfl, rfl⟩ := (rows source hop).mpr ⟨positive, by omega, atLevel⟩
  obtain ⟨toTarget, steps⟩ := paths found member
  exact ⟨callers, answer, found, member, rfl, by omega, toTarget, steps⟩

/-- A chain of calls is seen from both ends. -/
theorem callers_of_callees_chain :
    ∃ callers, transitiveCallers callChain "read" 3 = .ok (some callers) ∧
      ∃ found ∈ callers.rows, found.record.id = "main" ∧ found.hop ≤ 3 ∧
        CallPath callChain found.path "main" "read" := by
  have rows : (transitiveCallees callChain "main" 3).map (fun context =>
      context.map fun context => context.rows.map fun row =>
        (row.record.id, row.hop, row.path.map TransitiveCalleePathStep.edgeLabel)) =
      .ok (some [("parse", 1, ["CALLS"]), ("report", 1, ["CALLS"]), ("lex", 2, ["CALLS", "CALLS"]),
        ("read", 3, ["CALLS", "CALLS", "CALLS"])]) := by
    decide
  obtain ⟨context, answered, shown⟩ := exists_context_of_map rows
  obtain ⟨row, member, same⟩ : ∃ row ∈ context.rows,
      (row.record.id, row.hop, row.path.map TransitiveCalleePathStep.edgeLabel) =
        ("read", 3, ["CALLS", "CALLS", "CALLS"]) := by
    rw [← List.mem_map, shown]
    simp
  obtain ⟨isTarget, hop, path⟩ : _ ∧ _ ∧ _ := by simpa using same
  have labels : ∀ step ∈ row.path, step.edgeLabel = EdgeLabel.calls.asStr ∨
      step.edgeLabel = EdgeLabel.references.asStr := by
    intro step inPath
    have labelled := List.mem_map_of_mem (f := TransitiveCalleePathStep.edgeLabel) inPath
    rw [path] at labelled
    have called : step.edgeLabel = "CALLS" := by simpa using labelled
    exact Or.inl called
  obtain ⟨callers, answer, found, inside, isSource, nearer, isPath, -⟩ :=
    callers_of_callees callChain "main" "read" 3 answered member isTarget labels
  exact ⟨callers, answer, found, inside, isSource, hop ▸ nearer, isPath⟩

/-- An import, from both ends. -/
def importEdge : EdgeRecord := { dispatchEdge with label := .imports, resolution := none }

theorem importEdge_disagrees :
    ¬ ∀ (records : List GraphRecord) (source target : String), source ≠ target →
      ∀ (maxDepth : Nat) (context : TransitiveCalleesContext) (row : TransitiveCalleeRow),
        transitiveCallees records source maxDepth = .ok (some context) → row ∈ context.rows →
        row.record.id = target →
        ∃ callers, transitiveCallers records target maxDepth = .ok (some callers) ∧
          ∃ found ∈ callers.rows, found.record.id = source ∧ found.hop ≤ row.hop ∧
            CallPath records found.path source target ∧ found.path.length = found.hop := by
  intro always
  have callees : (transitiveCallees [callerNode, methodNode, .edge importEdge] "caller" 1).map
      (fun context => context.map fun context => context.rows.map fun row => row.record.id) =
      .ok (some ["method"]) := by
    decide
  have callers : (transitiveCallers [callerNode, methodNode, .edge importEdge] "method" 1).map
      (fun context => context.map fun context => context.rows.map fun row => row.record.id) =
      .ok (some []) := by
    decide
  obtain ⟨context, answered, shown⟩ := exists_context_of_map callees
  obtain ⟨row, member, isTarget⟩ := List.mem_map.mp (shown ▸ List.mem_singleton_self _)
  obtain ⟨context', answered', none⟩ := exists_context_of_map callers
  obtain ⟨found, answer, row', member', -⟩ :=
    always _ "caller" "method" (by decide) 1 context row answered member isTarget
  rw [answered'] at answer
  obtain rfl : context' = found := by simpa using answer
  rw [List.map_eq_nil_iff] at none
  rw [none] at member'
  cases member'

end Rows

end Egregore
