import Egregore.Base.Dedup
import Egregore.Base.LevelSearch
import Egregore.Query.Current

/-!
# Directed call-path witness

`call_path`: the least shortest chain of resolved `CALLS` edges between two live
records. The lane reads every physical version of an edge, so it agrees with the
current state exactly when that chain happens to use latest versions only.
`callPath_current_iff` compares the lane with itself over the current records, for
any sort that keeps its documentation.
-/

namespace Egregore

open Base

/-- One hop of a witness. -/
structure CallPathStep where
  sourceRecordId : String
  edgeRecordId : String
  edgeLabel : String
  resolution : Option CallResolution
  confidence : Option String
  targetRecordId : String
  deriving DecidableEq, Repr

/-- The result of the query. -/
structure CallPathContext where
  from_ : GraphRecord
  to_ : GraphRecord
  steps : List CallPathStep
  pathFound : Bool
  deriving DecidableEq, Repr

/-- An outbound edge or a discovery pointer: the other node, the edge and its confidence. -/
abbrev PathEdgeRef := String × String × Option String

/-- The comparison of the other node and the edge. -/
def pathEdgeOrder : PathEdgeRef → PathEdgeRef → Ordering :=
  compareLex (compareOn fun edge => asBytes edge.1) (compareOn fun edge => asBytes edge.2.1)

/-- `sort_unstable_by` on these two, whatever it does with equal keys. -/
abbrev UnstableSort := SortBy pathEdgeOrder

/-- The `confidence` of an edge. -/
def EdgeRecord.confidence (edge : EdgeRecord) : Option String := edge.rest.lookup "confidence"

/-- A resolved call of a live edge to a live target, under its source. -/
def resolvedCall (liveness : Liveness) (byId : StrMap GraphRecord) :
    GraphRecord → Option (String × PathEdgeRef)
  | .edge edge =>
      if edge.label = .calls ∧ edge.resolution = some .resolved ∧
          liveness.deleted edge.id = false ∧ byId.contains edge.target = true then
        some (edge.source, edge.target, edge.id, edge.confidence)
      else none
  | _ => none

/-- `outbound`, before its lists are sorted. -/
def outboundCalls (records : List GraphRecord) : StrMap (List PathEdgeRef) :=
  let liveness := Liveness.new records
  records.foldl (pushEntry (resolvedCall liveness (liveById liveness records))) ∅

/-- An outbound edge as a discovery of its target. -/
def discoveryOf (source : String) : PathEdgeRef → String × PathEdgeRef
  | (target, edgeId, confidence) => (target, source, edgeId, confidence)

/-- The discoveries that a node makes, in visit order. -/
def discoveriesFrom (sort : UnstableSort) (records : List GraphRecord) (source : String) :
    List (String × PathEdgeRef) :=
  (dedupBy pathEdgeOrder (sort.run ((outboundCalls records).getD source []))).map (discoveryOf source)

/-- The step a discovery pointer stands for. -/
def callPathStep : String × PathEdgeRef → CallPathStep
  | (target, source, edgeId, confidence) =>
      { sourceRecordId := source
        edgeRecordId := edgeId
        edgeLabel := "CALLS"
        resolution := some .resolved
        confidence := confidence
        targetRecordId := target }

/-- The search of `call_path` when it ends. -/
def callSearch (sort : UnstableSort) (records : List GraphRecord) (fromId toId : String) :
    LevelSearch String PathEdgeRef byteOrder :=
  LevelSearch.toward pathEdgeOrder (discoveriesFrom sort records) toId (records.length + 1)
    (LevelSearch.start fromId)

/-- `call_path`. A failure is the panic of its `expect`. -/
def callPath (sort : UnstableSort) (records : List GraphRecord) (fromId toId : String) :
    Except String (Option CallPathContext) :=
  let byId := liveById (Liveness.new records) records
  match byId[fromId]?, byId[toId]? with
  | some from_, some to_ =>
      if fromId = toId then .ok (some ⟨from_, to_, [], true⟩)
      else
        let search := callSearch sort records fromId toId
        if search.visited.contains toId then
          match chainTo Prod.fst search.parent fromId records.length toId with
          | none => .error "every node discovered before B has a parent pointer"
          | some links => .ok (some ⟨from_, to_, links.map callPathStep, true⟩)
        else .ok (some ⟨from_, to_, [], false⟩)
  | _, _ => .ok none

/-- The witness of an answer: `path_found` and `steps`. -/
def witnessOf (answer : Except String (Option CallPathContext)) :
    Except String (Option (Bool × List CallPathStep)) :=
  answer.map fun context => context.map fun context => (context.pathFound, context.steps)

instance : Std.TransCmp pathEdgeOrder := inferInstanceAs (Std.TransCmp (compareLex _ _))

theorem pathEdgeOrder_eq_iff {edge other : PathEdgeRef} :
    pathEdgeOrder edge other = .eq ↔ edge.1 = other.1 ∧ edge.2.1 = other.2.1 := by
  simp only [pathEdgeOrder, compareLex, compareOn, Ordering.then_eq_eq,
    Std.LawfulEqCmp.compare_eq_iff_eq]
  exact and_congr ⟨fun same => asBytes_injective same, congrArg asBytes⟩
    ⟨fun same => asBytes_injective same, congrArg asBytes⟩

section Calls

/-- The discoveries before sorting: one for each physical line. -/
def callsFrom (records : List GraphRecord) (source : String) : List (String × PathEdgeRef) :=
  ((outboundCalls records).getD source []).map (discoveryOf source)

/-- The discovery of a call edge. -/
def callOf (edge : EdgeRecord) : String × PathEdgeRef :=
  (edge.target, edge.source, edge.id, edge.confidence)

/-- What makes a line a call. -/
structure ResolvedCall (records : List GraphRecord) (edge : EdgeRecord) : Prop where
  label : edge.label = .calls
  resolution : edge.resolution = some .resolved
  live : (Liveness.new records).deleted edge.id = false
  target : Known records edge.target

/-- The last version of its edge is this call, and its target is a node or edge. -/
structure CurrentCall (records : List GraphRecord) (edge : EdgeRecord) : Prop where
  latest : lastEvent (GraphRecord.writesEdge edge.id) records = some (.edge edge)
  label : edge.label = .calls
  resolution : edge.resolution = some .resolved
  target : Written records edge.target

variable {records : List GraphRecord} {source : String} {link : String × PathEdgeRef}

theorem mem_callsFrom :
    link ∈ callsFrom records source ↔
      ∃ edge, .edge edge ∈ records ∧ ResolvedCall records edge ∧ edge.source = source ∧
        link = callOf edge := by
  rw [callsFrom, outboundCalls, getD_foldl_pushEntry]
  simp only [List.mem_map, List.mem_filter, List.mem_filterMap, decide_eq_true_eq]
  constructor
  · rintro ⟨reference, ⟨⟨key, reference'⟩, ⟨⟨record, member, found⟩, rfl⟩, rfl⟩, rfl⟩
    cases record with
    | node record => simp [resolvedCall] at found
    | tombstone record => simp [resolvedCall] at found
    | edge edge =>
        simp only [resolvedCall] at found
        split at found
        · next holds =>
            obtain ⟨label, resolution, live, target⟩ := holds
            obtain ⟨rfl, rfl⟩ := Prod.mk.inj (Option.some.inj found)
            refine ⟨edge, member, ⟨label, resolution, live, ?_⟩, rfl, rfl⟩
            rwa [← isSome_liveById, Std.ExtTreeMap.isSome_getElem?_eq_contains]
        · contradiction
  · rintro ⟨edge, member, ⟨label, resolution, live, target⟩, rfl, rfl⟩
    refine ⟨_, ⟨(edge.source, edge.target, edge.id, edge.confidence), ⟨⟨_, member, ?_⟩, rfl⟩, rfl⟩,
      rfl⟩
    rw [← isSome_liveById, Std.ExtTreeMap.isSome_getElem?_eq_contains] at target
    exact if_pos ⟨label, resolution, live, target⟩

theorem mem_callsFrom_current :
    link ∈ callsFrom (currentRecords records) source ↔
      link ∈ callsFrom records source ∧ ∃ edge, CurrentCall records edge ∧ link = callOf edge := by
  rw [mem_callsFrom, mem_callsFrom]
  constructor
  · rintro ⟨edge, member, ⟨label, resolution, -, target⟩, rfl, rfl⟩
    obtain ⟨live, latest⟩ := edge_mem_current.mp member
    have written := known_current.mp target
    exact ⟨⟨edge, (mem_of_lastEvent latest).1, ⟨label, resolution, live, written.known⟩, rfl, rfl⟩,
      edge, ⟨latest, label, resolution, written⟩, rfl⟩
  · rintro ⟨⟨line, -, ⟨-, -, live, -⟩, rfl, same⟩, edge, ⟨latest, label, resolution, target⟩, rfl⟩
    simp only [callOf, Prod.mk.injEq] at same
    obtain ⟨-, sameSource, sameId, -⟩ := same
    exact ⟨edge, edge_mem_current.mpr ⟨by rw [sameId, live], latest⟩,
      ⟨label, resolution, deleted_current, known_current.mpr target⟩, sameSource, rfl⟩

/-- An edge is one call of the collapsed slice. -/
theorem currentCall_decided {source source' target : String} {pointer pointer' : PathEdgeRef}
    (link : (target, pointer) ∈ callsFrom (currentRecords records) source)
    (link' : (target, pointer') ∈ callsFrom (currentRecords records) source')
    (draw : pathEdgeOrder pointer pointer' = .eq) : source = source' ∧ pointer = pointer' := by
  obtain ⟨edge, member, -, rfl, same⟩ := mem_callsFrom.mp link
  obtain ⟨edge', member', -, rfl, same'⟩ := mem_callsFrom.mp link'
  obtain ⟨-, rfl⟩ := Prod.mk.inj same
  obtain ⟨-, rfl⟩ := Prod.mk.inj same'
  obtain ⟨-, sameId⟩ := pathEdgeOrder_eq_iff.mp draw
  have latest := (edge_mem_current.mp member).2
  have latest' := (edge_mem_current.mp member').2
  rw [show edge.id = edge'.id from sameId, latest', Option.some.injEq,
    GraphRecord.edge.injEq] at latest
  subst latest
  exact ⟨rfl, rfl⟩

theorem source_of_mem_callsFrom (source target : String) (pointer : PathEdgeRef)
    (member : (target, pointer) ∈ callsFrom records source) : pointer.1 = source := by
  obtain ⟨edge, -, -, rfl, same⟩ := mem_callsFrom.mp member
  rw [(Prod.mk.inj same).2]

variable {sort : UnstableSort}

theorem mem_callsFrom_of_discovery (source : String) (link : String × PathEdgeRef)
    (member : link ∈ discoveriesFrom sort records source) : link ∈ callsFrom records source := by
  obtain ⟨reference, inside, rfl⟩ := List.mem_map.mp member
  exact List.mem_map_of_mem ((sort.perm _).mem_iff.mp (mem_of_mem_dedupBy inside))

theorem discovery_of_mem (source target : String) (pointer : PathEdgeRef)
    (member : (target, pointer) ∈ callsFrom records source) :
    ∃ other, (target, other) ∈ discoveriesFrom sort records source ∧
      pathEdgeOrder other pointer = .eq := by
  obtain ⟨⟨target', edgeId, confidence⟩, inside, same⟩ := List.mem_map.mp member
  obtain ⟨rfl, rfl⟩ := Prod.mk.inj same
  obtain ⟨⟨keptTarget, keptEdge, keptConfidence⟩, kept, key, -⟩ :=
    exists_mem_dedupBy pathEdgeOrder (sort.sorted ((outboundCalls records).getD source []))
      ((sort.perm _).mem_iff.mpr inside)
  obtain ⟨rfl, rfl⟩ := pathEdgeOrder_eq_iff.mp key
  exact ⟨(source, keptEdge, keptConfidence), List.mem_map.mpr ⟨_, kept, rfl⟩,
    pathEdgeOrder_eq_iff.mpr ⟨rfl, rfl⟩⟩

/-- Two discoveries that draw are one. -/
theorem discovery_decided {source source' target : String} {pointer pointer' : PathEdgeRef}
    (link : (target, pointer) ∈ discoveriesFrom sort records source)
    (link' : (target, pointer') ∈ discoveriesFrom sort records source')
    (draw : pathEdgeOrder pointer pointer' = .eq) : source = source' ∧ pointer = pointer' := by
  have sameSource := (pathEdgeOrder_eq_iff.mp draw).1
  rw [source_of_mem_callsFrom _ _ _ (mem_callsFrom_of_discovery _ _ link),
    source_of_mem_callsFrom _ _ _ (mem_callsFrom_of_discovery _ _ link')] at sameSource
  subst sameSource
  refine ⟨rfl, ?_⟩
  obtain ⟨⟨target₁, edge₁, confidence₁⟩, kept, same⟩ := List.mem_map.mp link
  obtain ⟨⟨target₂, edge₂, confidence₂⟩, kept', same'⟩ := List.mem_map.mp link'
  obtain ⟨rfl, rfl⟩ := Prod.mk.inj same
  obtain ⟨rfl, rfl⟩ := Prod.mk.inj same'
  have one := eq_of_mem_dedupBy (sort.sorted _) kept kept'
    (pathEdgeOrder_eq_iff.mpr ⟨rfl, (pathEdgeOrder_eq_iff.mp draw).2⟩)
  rw [(Prod.mk.inj one).2]

/-- Least chains after sorting are least chains over the lines. -/
theorem leastChain_of_discoveries {start node : String} {level : Nat}
    {links : List (String × PathEdgeRef)}
    (chain : LeastChain pathEdgeOrder (discoveriesFrom sort records) start level node links) :
    LeastChain pathEdgeOrder (callsFrom records) start level node links :=
  chain.extend mem_callsFrom_of_discovery discovery_of_mem

/-- Some sort keeps the links of a given least chain. -/
theorem exists_sort_leastChain {start node : String} {level : Nat}
    {links : List (String × PathEdgeRef)}
    (chain : LeastChain pathEdgeOrder (callsFrom records) start level node links) :
    ∃ sort : UnstableSort,
      LeastChain pathEdgeOrder (discoveriesFrom sort records) start level node links := by
  have inCalls := chain.link_mem source_of_mem_callsFrom
  let preferred : PathEdgeRef → Bool := fun reference =>
    links.any fun link => (link.1, link.2.2) = reference
  refine ⟨.preferring preferred, chain.restrict mem_callsFrom_of_discovery
    source_of_mem_callsFrom ?_⟩
  rintro ⟨target, source, edgeId, confidence⟩ member
  obtain ⟨⟨target', edgeId', confidence'⟩, inside, same⟩ := List.mem_map.mp (inCalls _ member).1
  simp only [discoveryOf, Prod.mk.injEq] at same
  obtain ⟨rfl, -, rfl, rfl⟩ := same
  refine List.mem_map.mpr ⟨(target', edgeId', confidence'), ?_, rfl⟩
  refine mem_dedupBy_preferring inside (List.any_eq_true.mpr ⟨_, member, by simp⟩) ?_
  rintro other - prefers key
  obtain ⟨⟨target, pointer⟩, member', rfl'⟩ := List.any_eq_true.mp prefers
  obtain rfl := of_decide_eq_true rfl'
  have one := chain.eq_of_target source_of_mem_callsFrom member' member
    (pathEdgeOrder_eq_iff.mp key).1
  rw [(Prod.mk.inj one).1, (Prod.mk.inj one).2]

end Calls

section Witness

variable {records : List GraphRecord} {fromId toId : String}

private theorem length_getD_le (source : String) :
    ∀ link ∈ callsFrom records source, link.1 ∈ records.filterMap fun record =>
      (resolvedCall (Liveness.new records) (liveById (Liveness.new records) records) record).map
        fun call => call.2.1 := by
  intro link member
  rw [callsFrom, outboundCalls, getD_foldl_pushEntry] at member
  simp only [List.mem_map, List.mem_filter, List.mem_filterMap] at member ⊢
  obtain ⟨reference, ⟨call, ⟨⟨record, inside, found⟩, -⟩, rfl⟩, rfl⟩ := member
  exact ⟨record, inside, by rw [found]; rfl⟩

/-- Between two different live records, the answer is the least shortest chain or says that no
chain exists. -/
theorem witnessOf_callPath (sort : UnstableSort) (from_ : Known records fromId)
    (to_ : Known records toId) (distinct : fromId ≠ toId) :
    (∃ level links, LeastChain pathEdgeOrder (discoveriesFrom sort records) fromId level toId links ∧
      witnessOf (callPath sort records fromId toId) = .ok (some (true, links.map callPathStep))) ∨
    ((∀ length, ¬ Walk (discoveriesFrom sort records) fromId length toId) ∧
      witnessOf (callPath sort records fromId toId) = .ok (some (false, []))) := by
  obtain ⟨fromRecord, fromFound⟩ := Option.isSome_iff_exists.mp (isSome_liveById.mpr from_)
  obtain ⟨toRecord, toFound⟩ := Option.isSome_iff_exists.mp (isSome_liveById.mpr to_)
  have within : ∀ source target pointer, (target, pointer) ∈ discoveriesFrom sort records source →
      target ∈ records.filterMap fun record =>
        (resolvedCall (Liveness.new records) (liveById (Liveness.new records) records) record).map
          fun call => call.2.1 :=
    fun source target pointer link => length_getD_le source _ (mem_callsFrom_of_discovery _ _ link)
  have bound := List.length_filterMap_le (fun record =>
    (resolvedCall (Liveness.new records) (liveById (Liveness.new records) records) record).map
      fun call => call.2.1) records
  have start : (LevelSearch.start fromId : LevelSearch String PathEdgeRef byteOrder).Describes
      pathEdgeOrder (discoveriesFrom sort records) fromId 0 := LevelSearch.start_describes
  have enough : (records.filterMap fun record =>
      (resolvedCall (Liveness.new records) (liveById (Liveness.new records) records) record).map
        fun call => call.2.1).length + 1 ≤ records.length + 1 + 0 := by omega
  obtain ⟨last, described, ended⟩ := start.toward within toId enough
  have reached := described.visited_iff ended
  rw [← callSearch] at described reached
  simp only [witnessOf, callPath, fromFound, toFound, distinct, if_false]
  generalize callSearch sort records fromId toId = search at described reached ⊢
  rw [Std.ExtTreeSet.mem_iff_contains] at reached
  cases visited : search.visited.contains toId with
  | false =>
      refine Or.inr ⟨fun length walk => ?_, rfl⟩
      rw [reached.mpr ⟨length, walk⟩] at visited
      contradiction
  | true =>
      have inside : toId ∈ search.visited := Std.ExtTreeSet.mem_iff_contains.mpr visited
      obtain ⟨length, below, walk⟩ := (described.visited toId).mp inside
      obtain ⟨level, shorter, atLevel⟩ := exists_atLevel walk
      obtain ⟨links, chained, chain⟩ := described.chainTo (fun source target pointer link =>
        source_of_mem_callsFrom source target pointer (mem_callsFrom_of_discovery _ _ link))
        atLevel (Nat.le_trans shorter below) (Nat.le_trans (atLevel.le_length within) bound)
      refine Or.inl ⟨level, links, chain, ?_⟩
      simp only [if_true, chained]
      rfl

/-- An unknown endpoint has no answer. -/
theorem witnessOf_callPath_unknown (sort : UnstableSort)
    (unknown : ¬ (Known records fromId ∧ Known records toId)) :
    witnessOf (callPath sort records fromId toId) = .ok none := by
  simp only [witnessOf, callPath]
  rw [← isSome_liveById, ← isSome_liveById] at unknown
  cases from_ : (liveById (Liveness.new records) records)[fromId]? with
  | none => rfl
  | some fromRecord =>
      cases to_ : (liveById (Liveness.new records) records)[toId]? with
      | none => rfl
      | some toRecord => simp [from_, to_] at unknown

/-- A record reaches itself without a step. -/
theorem witnessOf_callPath_self (sort : UnstableSort) (known : Known records fromId) :
    witnessOf (callPath sort records fromId fromId) = .ok (some (true, [])) := by
  obtain ⟨record, found⟩ := Option.isSome_iff_exists.mp (isSome_liveById.mpr known)
  simp only [witnessOf, callPath, found, if_true]
  rfl

theorem callPathStep_injective : Function.Injective callPathStep := by
  rintro ⟨target, source, edge, confidence⟩ ⟨target', source', edge', confidence'⟩ same
  simp only [callPathStep, CallPathStep.mk.injEq] at same
  simp_all

end Witness

section CurrentState

variable (records : List GraphRecord) (fromId toId : String)

/-- The answer to a query depends on current versions only: its ends are nodes or edges rather
than tombstones, and the least shortest chain over all lines takes latest versions only. -/
structure ReadsCurrent : Prop where
  from_ : Written records fromId
  to_ : Written records toId
  chain : ∀ level links,
    LeastChain pathEdgeOrder (callsFrom records) fromId level toId links →
      ∀ link ∈ links, ∃ edge, CurrentCall records edge ∧ link = callOf edge

variable {records fromId toId}

/-- The least chain of the whole slice is that of the collapsed one, if it uses current calls. -/
theorem ReadsCurrent.witness_eq (reads : ReadsCurrent records fromId toId)
    (sort : UnstableSort) :
    witnessOf (callPath sort records fromId toId) =
      witnessOf (callPath sort (currentRecords records) fromId toId) := by
  have from_ := known_current.mpr reads.from_
  have to_ := known_current.mpr reads.to_
  by_cases same : fromId = toId
  · subst same
    rw [witnessOf_callPath_self sort reads.from_.known, witnessOf_callPath_self sort from_]
  · have sub : ∀ source link, link ∈ callsFrom (currentRecords records) source →
        link ∈ callsFrom records source := fun source link member =>
      (mem_callsFrom_current.mp member).1
    have walks : ∀ {slice : List GraphRecord} {length : Nat} {node : String},
        Walk (discoveriesFrom sort slice) fromId length node ↔
          Walk (callsFrom slice) fromId length node := fun {slice length node} =>
      ⟨Walk.mono mem_callsFrom_of_discovery, Walk.represented fun source target pointer link =>
        (discovery_of_mem source target pointer link).imp fun _ => And.left⟩
    rcases witnessOf_callPath sort reads.from_.known reads.to_.known same with
      ⟨level, links, chain, answer⟩ | ⟨noWalk, answer⟩
    · -- The chain survives in the collapsed slice.
      have overLines := leastChain_of_discoveries chain
      have inCalls := overLines.link_mem source_of_mem_callsFrom
      have current := overLines.restrict sub source_of_mem_callsFrom fun link member =>
        mem_callsFrom_current.mpr ⟨(inCalls link member).1, reads.chain level links overLines link
          member⟩
      rcases witnessOf_callPath sort from_ to_ same with
        ⟨level', links', chain', answer'⟩ | ⟨noWalk', -⟩
      · have one : links = links' := current.unique (fun _ _ _ _ _ => currentCall_decided)
          (leastChain_of_discoveries chain')
        rw [answer, answer', one]
      · exact absurd (walks.mpr current.atLevel.1) (noWalk' level)
    · rcases witnessOf_callPath sort from_ to_ same with
        ⟨level', links', chain', -⟩ | ⟨-, answer'⟩
      · exact absurd (walks.mpr ((leastChain_of_discoveries chain').atLevel.1.mono sub))
          (noWalk level')
      · rw [answer, answer']

/-- Agreement with the collapsed slice, whatever the sort does with equal keys: exactly when a
query between known records reads current versions. -/
theorem callPath_current_iff (records : List GraphRecord) (fromId toId : String) :
    (∀ sort, witnessOf (callPath sort records fromId toId) =
      witnessOf (callPath sort (currentRecords records) fromId toId)) ↔
    (Known records fromId → Known records toId → ReadsCurrent records fromId toId) := by
  constructor
  · intro agree from_ to_
    have collapsed : ∀ (sort : UnstableSort) (answer : Bool × List CallPathStep),
        witnessOf (callPath sort records fromId toId) = .ok (some answer) →
        Known (currentRecords records) fromId ∧ Known (currentRecords records) toId := by
      intro sort answer answered
      by_contra unknown
      rw [agree, witnessOf_callPath_unknown sort unknown] at answered
      simp at answered
    by_cases same : fromId = toId
    · subst same
      have known := (collapsed (.preferring fun _ => false) _
        (witnessOf_callPath_self _ from_)).1
      refine ⟨known_current.mp known, known_current.mp known, fun level links chain => ?_⟩
      obtain rfl := chain.atLevel.unique (atLevel_zero.mpr rfl)
      cases chain
      simp
    · have known : Known (currentRecords records) fromId ∧ Known (currentRecords records) toId := by
        rcases witnessOf_callPath (.preferring fun _ => false) from_ to_ same with
          ⟨level, links, -, answer⟩ | ⟨-, answer⟩
        · exact collapsed _ _ answer
        · exact collapsed _ _ answer
      refine ⟨known_current.mp known.1, known_current.mp known.2, fun level links chain => ?_⟩
      -- Sort so that the witness is this chain.
      obtain ⟨sort, sorted⟩ := exists_sort_leastChain chain
      rcases witnessOf_callPath sort from_ to_ same with
        ⟨level', links', chain', answer⟩ | ⟨noWalk, -⟩
      · obtain rfl : links = links' := sorted.unique (fun _ _ _ _ _ => discovery_decided) chain'
        rw [agree] at answer
        rcases witnessOf_callPath sort known.1 known.2 same with
          ⟨level'', links'', chain'', answer'⟩ | ⟨-, answer'⟩
        · rw [answer] at answer'
          simp only [Except.ok.injEq, Option.some.injEq, Prod.mk.injEq, true_and] at answer'
          obtain rfl := callPathStep_injective.list_map answer'
          intro link member
          have inCalls := (leastChain_of_discoveries chain'').link_mem source_of_mem_callsFrom
          exact (mem_callsFrom_current.mp (inCalls link member).1).2
        · rw [answer] at answer'
          simp at answer'
      · exact absurd sorted.atLevel.1 (noWalk level)
  · intro reads sort
    by_cases known : Known records fromId ∧ Known records toId
    · exact (reads known.1 known.2).witness_eq sort
    · have unknown : ¬ (Known (currentRecords records) fromId ∧
          Known (currentRecords records) toId) := fun both =>
        known ⟨(known_current.mp both.1).known, (known_current.mp both.2).known⟩
      rw [witnessOf_callPath_unknown sort known, witnessOf_callPath_unknown sort unknown]

/-- A call that a later version of its edge withdraws. -/
def withdrawnCall : List GraphRecord :=
  [.node { id := "caller", kind := .symbol, schemaVersion := 1 },
    .node { id := "callee", kind := .symbol, schemaVersion := 1 },
    .edge {
      id := "call"
      schemaVersion := 1
      label := .calls
      source := "caller"
      target := "callee"
      resolution := some .resolved },
    .edge {
      id := "call"
      schemaVersion := 1
      label := .calls
      source := "caller"
      target := "callee"
      resolution := some .unresolved }]

/-- The first version still carries the witness. -/
theorem withdrawnCall_differs :
    (∀ record ∈ withdrawnCall, record.temporal = none) ∧
    witnessOf (callPath (.preferring fun _ => false) withdrawnCall "caller" "callee") ≠
      witnessOf (callPath (.preferring fun _ => false) (currentRecords withdrawnCall) "caller"
        "callee") := by
  decide

end CurrentState

end Egregore
