import Egregore.Query.EvidencePath
import Egregore.Query.Reordered

/-!
# The least shortest evidence path

What `evidence_path` answers between two live nodes: a path exactly if evidence edges connect them,
then the least of the shortest ones, whatever the order of the slice. `evidencePath_answers` rests
on the search by levels, which meets every node at its distance and by its least edge.
-/

namespace Egregore

open Base

section Statement

variable (records : List GraphRecord)

/-- A node that is not deleted has this ID. -/
def LiveEndpoint (id : String) : Prop :=
  (∃ node, .node node ∈ records ∧ node.id = id) ∧ (Liveness.new records).deleted id = false

/-- An edge of the evidence graph: the last version of its ID, of a traversed label, between two
different live nodes. -/
structure EvidenceEdge (edge : EdgeRecord) : Prop where
  latest : lastEvent (GraphRecord.writesEdge edge.id) records = some (.edge edge)
  live : (Liveness.new records).deleted edge.id = false
  traversed : isEvidencePathEdge edge.label = true
  distinct : edge.source ≠ edge.target
  source : LiveEndpoint records edge.source
  target : LiveEndpoint records edge.target

/-- The end at which a walk takes up an edge. -/
def EdgeRecord.near (edge : EdgeRecord) (forward : Bool) : String :=
  if forward then edge.source else edge.target

/-- The end to which a walk takes an edge. -/
def EdgeRecord.far (edge : EdgeRecord) (forward : Bool) : String :=
  if forward then edge.target else edge.source

/-- The steps of a path of evidence edges. -/
inductive EvidenceChain (sourceId : String) : List (String × String) → String → Prop where
  | start : EvidenceChain sourceId [] sourceId
  | step {steps : List (String × String)} {edge : EdgeRecord} (forward : Bool)
      (prior : EvidenceChain sourceId steps (edge.near forward))
      (isEdge : EvidenceEdge records edge) :
      EvidenceChain sourceId (steps ++ [(edge.far forward, edge.id)]) (edge.far forward)

/-- The row of a live node. -/
def IsRow (id : String) (row : EvidenceNodeRow) : Prop :=
  ∃ node, lastEvent (GraphRecord.writesNode id) records = some (.node node) ∧
    row = projectNodeRow node

/-- A hop that takes an edge: its stored ends, and the direction of the walk. -/
structure EvidenceHop.Takes (hop : EvidenceHop) (edge : EdgeRecord) (forward : Bool) : Prop where
  from_ : IsRow records edge.source hop.from_
  to_ : IsRow records edge.target hop.to_
  edgeId : hop.edge.edgeRecordId = edge.id
  label : hop.edge.label = edge.label.asStr
  direction : hop.edge.traversalDirection = if forward then "forward" else "reverse"

/-- The hops of a path of evidence edges. -/
inductive HopChain (sourceId : String) : List EvidenceHop → String → Prop where
  | start : HopChain sourceId [] sourceId
  | step {hops : List EvidenceHop} {hop : EvidenceHop} {edge : EdgeRecord} (forward : Bool)
      (prior : HopChain sourceId hops (edge.near forward)) (isEdge : EvidenceEdge records edge)
      (takes : hop.Takes records edge forward) (index : hop.index = hops.length) :
      HopChain sourceId (hops ++ [hop]) (edge.far forward)

/-- The neighbour that a hop leads to, and its edge. -/
def EvidenceHop.step (hop : EvidenceHop) : String × String :=
  (if hop.edge.traversalDirection = "forward" then hop.to_.recordId else hop.from_.recordId,
    hop.edge.edgeRecordId)

/-- A shortest path, whose steps are the least among the shortest ones. -/
structure LeastEvidencePath (sourceId targetId : String) (path : EvidencePath) : Prop where
  source : IsRow records sourceId path.source
  target : IsRow records targetId path.target
  hops : HopChain records sourceId path.hops targetId
  steps : EvidenceChain records sourceId (path.hops.map EvidenceHop.step) targetId
  shortest : ∀ steps, EvidenceChain records sourceId steps targetId →
    path.hops.length ≤ steps.length
  least : ∀ steps, EvidenceChain records sourceId steps targetId →
    steps.length = path.hops.length →
      List.compareLex pairOrder steps (path.hops.map EvidenceHop.step) ≠ .lt

/-- A path is found exactly if there is one, then the least shortest one; another order of the
slice, with the records of each ID in the same order, does not change the answer. -/
structure EvidencePathLaw (sourceId targetId : String) : Prop where
  found : (∃ steps, EvidenceChain records sourceId steps targetId) →
    ∃ path, evidencePath records sourceId targetId = some (.ok path) ∧
      LeastEvidencePath records sourceId targetId path
  absent : (¬ ∃ steps, EvidenceChain records sourceId steps targetId) →
    ∃ source target traversed excluded, evidencePath records sourceId targetId =
      some (.error (.noPath source target traversed excluded))
  invariant : ∀ others, Reordered records others →
    evidencePath others sourceId targetId = evidencePath records sourceId targetId

end Statement

section Nodes

variable {records : List GraphRecord} {id : String}

/-- The map holds the latest version of each node that is not deleted. -/
theorem getElem?_liveNodesById {node : NodeRecord} :
    (liveNodesById (Liveness.new records) records)[id]? = some node ↔
      (Liveness.new records).deleted id = false ∧
        lastEvent (GraphRecord.writesNode id) records = some (.node node) := by
  generalize Liveness.new records = liveness
  induction records using List.reverseRecOn with
  | nil => simp [liveNodesById, lastEvent]
  | append_singleton records last ih =>
      rw [liveNodesById, List.foldl_append, List.foldl_cons, List.foldl_nil, ← liveNodesById,
        insertEntry, lastEvent, List.filter_append]
      cases last with
      | edge edge => simpa [GraphRecord.writesNode, lastEvent] using ih
      | tombstone tombstone => simpa [GraphRecord.writesNode, lastEvent] using ih
      | node last =>
          by_cases named : last.id = id
          · subst named
            cases deleted : liveness.deleted last.id with
            | true => simpa [deleted] using ih
            | false => simp [deleted, GraphRecord.writesNode]
          · have other : GraphRecord.writesNode id (.node last) = false := by
              simp [GraphRecord.writesNode, named]
            cases deleted : liveness.deleted last.id with
            | true => simpa [deleted, other, lastEvent] using ih
            | false => simpa [deleted, other, lastEvent, getElem?_insert_eq, named] using ih

/-- So it has an ID exactly when that is a live end. -/
theorem contains_liveNodesById :
    (liveNodesById (Liveness.new records) records).contains id = true ↔
      LiveEndpoint records id := by
  rw [← Std.ExtTreeMap.isSome_getElem?_eq_contains, Option.isSome_iff_exists]
  simp only [getElem?_liveNodesById]
  constructor
  · rintro ⟨node, live, latest⟩
    obtain ⟨member, writes⟩ := mem_of_lastEvent latest
    exact ⟨⟨node, member, of_decide_eq_true writes⟩, live⟩
  · rintro ⟨⟨node, member, rfl⟩, live⟩
    cases latest : lastEvent (GraphRecord.writesNode node.id) records with
    | none =>
        rw [lastEvent, List.getLast?_eq_none_iff, List.filter_eq_nil_iff] at latest
        exact absurd (decide_eq_true rfl) (latest _ member)
    | some last =>
        cases last with
        | node last => exact ⟨last, live, rfl⟩
        | edge edge => cases (mem_of_lastEvent latest).2
        | tombstone tombstone => cases (mem_of_lastEvent latest).2

/-- The row of a live node. -/
theorem LiveEndpoint.row (live : LiveEndpoint records id) :
    ∃ node, (liveNodesById (Liveness.new records) records)[id]? = some node ∧
      IsRow records id (projectNodeRow node) := by
  have found := contains_liveNodesById.mpr live
  rw [← Std.ExtTreeMap.isSome_getElem?_eq_contains] at found
  obtain ⟨node, found⟩ := Option.isSome_iff_exists.mp found
  exact ⟨node, found, node, (getElem?_liveNodesById.mp found).2, rfl⟩

/-- A row shows the node of its ID. -/
theorem IsRow.recordId {row : EvidenceNodeRow} (isRow : IsRow records id row) :
    row.recordId = id := by
  obtain ⟨node, latest, rfl⟩ := isRow
  exact of_decide_eq_true (mem_of_lastEvent latest).2

end Nodes

section Links

variable {records : List GraphRecord}

/-- The entry of an edge under the end from which it is taken. -/
def entryOf (edge : EdgeRecord) (forward : Bool) : EvidenceAdjacency where
  neighbor := edge.far forward
  edgeId := edge.id
  label := edge.label
  nativeFrom := edge.source
  nativeTo := edge.target
  basis := edge.basis

/-- An evidence edge is listed at both ends, with its direction. -/
theorem mem_evidenceEntries {node : String} {adj : EvidenceAdjacency} :
    (node, adj) ∈ records.zipIdx.flatMap (evidenceEntries (Liveness.new records)
        (liveNodesById (Liveness.new records) records)) ↔
      ∃ edge forward, EvidenceEdge records edge ∧ node = edge.near forward ∧
        adj = entryOf edge forward := by
  simp only [List.mem_flatMap, Prod.exists, List.mk_mem_zipIdx_iff_getElem?]
  constructor
  · rintro ⟨record, index, found, inside⟩
    cases record with
    | node record => cases inside
    | tombstone record => cases inside
    | edge edge =>
        simp only [evidenceEntries] at inside
        split at inside
        · cases inside
        next latest =>
          split at inside
          · cases inside
          next kept =>
            split at inside
            · cases inside
            next ends =>
              simp only [Bool.not_eq_true, Bool.not_eq_false', Bool.or_eq_false_iff,
                Liveness.isLatestEdgeVersion_new, decide_eq_true_eq] at latest kept
              push Not at ends
              obtain ⟨distinct, liveSource, liveTarget, source, target⟩ := ends
              simp only [ne_eq, Bool.not_eq_false, contains_liveNodesById] at source target
              have isEdge : EvidenceEdge records edge :=
                ⟨lastEvent_eq_some_iff.mpr ⟨index, latest, found⟩, kept.1, kept.2, distinct,
                  source, target⟩
              simp only [List.mem_cons, Prod.mk.injEq, List.not_mem_nil, or_false] at inside
              rcases inside with ⟨rfl, rfl⟩ | ⟨rfl, rfl⟩
              · exact ⟨edge, true, isEdge, rfl, rfl⟩
              · exact ⟨edge, false, isEdge, rfl, rfl⟩
  · rintro ⟨edge, forward, isEdge, rfl, rfl⟩
    obtain ⟨index, latest, found⟩ := lastEvent_eq_some_iff.mp isEdge.latest
    refine ⟨.edge edge, index, found, ?_⟩
    have source := contains_liveNodesById.mpr isEdge.source
    have target := contains_liveNodesById.mpr isEdge.target
    simp only [evidenceEntries, Liveness.isLatestEdgeVersion_new, latest, isEdge.live,
      isEdge.traversed, isEdge.distinct, isEdge.source.2, isEdge.target.2, source, target]
    cases forward <;> simp [EdgeRecord.near, EdgeRecord.far, entryOf]

/-- Entries of one node that draw are one. -/
theorem entryOf_decided {edge other : EdgeRecord} {forward forward' : Bool}
    (isEdge : EvidenceEdge records edge) (isOther : EvidenceEdge records other)
    (near : edge.near forward = other.near forward')
    (draw : adjacencyOrder (entryOf edge forward) (entryOf other forward') = .eq) :
    edge = other ∧ forward = forward' := by
  have same := (inferInstance : Std.LawfulEqCmp pairOrder).eq_of_compare draw
  have sameId : edge.id = other.id := (Prod.mk.inj same).2
  have latest := isEdge.latest
  rw [sameId, isOther.latest, Option.some.injEq, GraphRecord.edge.injEq] at latest
  subst latest
  refine ⟨rfl, ?_⟩
  have distinct := isEdge.distinct
  cases forward <;> cases forward' <;> simp_all [EdgeRecord.near, eq_comm]

instance : Std.TransCmp adjacencyOrder where
  eq_swap := (inferInstance : Std.TransCmp pairOrder).eq_swap
  isLE_trans := (inferInstance : Std.TransCmp pairOrder).isLE_trans

/-- The lists collect these entries by node. -/
theorem mem_witnessAdjacency {node : String} {adj : EvidenceAdjacency} :
    adj ∈ (witnessAdjacency records).getD node [] ↔
      ∃ edge forward, EvidenceEdge records edge ∧ node = edge.near forward ∧
        adj = entryOf edge forward := by
  rw [← mem_evidenceEntries, witnessAdjacency, getD_foldl_pushEntry, List.filterMap_some]
  simp only [List.mem_map, List.mem_filter, decide_eq_true_eq]
  constructor
  · rintro ⟨⟨node', adj'⟩, ⟨inside, rfl⟩, rfl⟩
    exact inside
  · intro inside
    exact ⟨_, ⟨inside, rfl⟩, rfl⟩

/-- Sorting a list loses no entry. -/
theorem mem_sortedAdjacency {node : String} {adj : EvidenceAdjacency} :
    adj ∈ sortedAdjacency records node ↔
      ∃ edge forward, EvidenceEdge records edge ∧ node = edge.near forward ∧
        adj = entryOf edge forward := by
  rw [← mem_witnessAdjacency, sortedAdjacency]
  refine mem_dedupBy_of_perm (List.perm_insertionSort _ _) fun kept isKept entry isEntry draw => ?_
  -- No other entry of the node has its key.
  obtain ⟨edge, forward, isEdge, rfl, rfl⟩ := mem_witnessAdjacency.mp isEntry
  obtain ⟨other, forward', isOther, near, rfl⟩ := mem_witnessAdjacency.mp isKept
  obtain ⟨rfl, rfl⟩ := entryOf_decided isOther isEdge near.symm draw
  rfl

/-- A link of the search is an entry with the node it leads to. -/
theorem mem_witnessLinks {node target : String} {discovery : EvidenceDiscovery} :
    (target, discovery) ∈ witnessLinks records node ↔
      ∃ edge forward, EvidenceEdge records edge ∧ node = edge.near forward ∧
        target = edge.far forward ∧ discovery = ⟨node, entryOf edge forward⟩ := by
  simp only [witnessLinks, List.mem_map, Prod.mk.injEq, mem_sortedAdjacency]
  constructor
  · rintro ⟨adj, ⟨edge, forward, isEdge, rfl, rfl⟩, rfl, rfl⟩
    exact ⟨edge, forward, isEdge, rfl, rfl, rfl⟩
  · rintro ⟨edge, forward, isEdge, rfl, rfl, rfl⟩
    exact ⟨_, ⟨edge, forward, isEdge, rfl, rfl⟩, rfl, rfl⟩

/-- A link remembers the node it was found from. -/
theorem parent_of_mem_witnessLinks (source target : String) (discovery : EvidenceDiscovery)
    (link : (target, discovery) ∈ witnessLinks records source) : discovery.parent = source := by
  obtain ⟨edge, forward, -, -, -, rfl⟩ := mem_witnessLinks.mp link
  rfl

/-- The nodes that an entry leads to. -/
def evidenceTargets (records : List GraphRecord) : List String :=
  (records.zipIdx.flatMap (evidenceEntries (Liveness.new records)
    (liveNodesById (Liveness.new records) records))).map fun entry => entry.2.neighbor

/-- A link leads to one of the targets. -/
theorem mem_evidenceTargets (source target : String) (discovery : EvidenceDiscovery)
    (link : (target, discovery) ∈ witnessLinks records source) :
    target ∈ evidenceTargets records := by
  obtain ⟨edge, forward, isEdge, near, rfl, -⟩ := mem_witnessLinks.mp link
  exact List.mem_map.mpr ⟨(source, entryOf edge forward),
    mem_evidenceEntries.mpr ⟨edge, forward, isEdge, near, rfl⟩, rfl⟩

/-- An edge has two entries at most. -/
theorem length_evidenceEntries (liveness : Liveness) (byId : StrMap NodeRecord)
    (entry : GraphRecord × Nat) : (evidenceEntries liveness byId entry).length ≤ 2 := by
  obtain ⟨record, index⟩ := entry
  cases record with
  | node node => simp [evidenceEntries]
  | tombstone tombstone => simp [evidenceEntries]
  | edge edge =>
      simp only [evidenceEntries]
      split
      · simp
      split
      · simp
      split
      · simp
      · simp

/-- So there are at most twice as many targets as records. -/
theorem length_evidenceTargets : (evidenceTargets records).length ≤ 2 * records.length := by
  have pairs : ∀ entries : List (GraphRecord × Nat),
      (entries.flatMap (evidenceEntries (Liveness.new records)
        (liveNodesById (Liveness.new records) records))).length ≤ 2 * entries.length := by
    intro entries
    induction entries with
    | nil => simp
    | cons first rest ih =>
        have := length_evidenceEntries (Liveness.new records)
          (liveNodesById (Liveness.new records) records) first
        rw [List.flatMap_cons, List.length_append, List.length_cons]
        omega
  rw [evidenceTargets, List.length_map]
  simpa using pairs records.zipIdx

/-! ### Steps and links -/

variable {sourceId : String}

/-- The trails over the links are the paths of evidence edges. -/
theorem exists_trail_iff {steps : List (String × String)} {node : String} :
    (∃ links, Trail (witnessLinks records) sourceId links node ∧
      links.map evidenceStep = steps) ↔ EvidenceChain records sourceId steps node := by
  constructor
  · rintro ⟨links, trail, rfl⟩
    induction trail with
    | start => exact .start
    | step prior link ih =>
        obtain ⟨edge, forward, isEdge, rfl, rfl, rfl⟩ := mem_witnessLinks.mp link
        rw [List.map_append, List.map_singleton]
        exact .step forward ih isEdge
  · intro chain
    induction chain with
    | start => exact ⟨[], .start, rfl⟩
    | step forward prior isEdge ih =>
        obtain ⟨links, trail, rfl⟩ := ih
        refine ⟨_, .step trail (mem_witnessLinks.mpr ⟨_, forward, isEdge, rfl, rfl, rfl⟩), ?_⟩
        rw [List.map_append, List.map_singleton]
        rfl

/-- The hops of a trail are hops of its edges. -/
theorem hops_of_trail {links : List (String × EvidenceDiscovery)} {node : String}
    (trail : Trail (witnessLinks records) sourceId links node) :
    ∃ hops, (links.zipIdx.mapM fun entry => evidenceHop
        (liveNodesById (Liveness.new records) records) entry.2 entry.1.2) = some hops ∧
      HopChain records sourceId hops node ∧ hops.length = links.length ∧
      hops.map EvidenceHop.step = links.map evidenceStep := by
  induction trail with
  | start => exact ⟨[], rfl, .start, rfl, rfl⟩
  | @step links source target pointer prior link ih =>
      obtain ⟨hops, made, chain, length, steps⟩ := ih
      obtain ⟨edge, forward, isEdge, rfl, rfl, rfl⟩ := mem_witnessLinks.mp link
      obtain ⟨from_, foundFrom, rowFrom⟩ := isEdge.source.row
      obtain ⟨to_, foundTo, rowTo⟩ := isEdge.target.row
      have hop : ∃ hop, evidenceHop (liveNodesById (Liveness.new records) records) links.length
          ⟨edge.near forward, entryOf edge forward⟩ = some hop ∧ hop.index = links.length ∧
          hop.Takes records edge forward ∧ hop.step = (edge.far forward, edge.id) := by
        refine ⟨_, by rw [evidenceHop]; simp only [entryOf, foundFrom, foundTo]; rfl, rfl,
          ⟨rowFrom, rowTo, rfl, rfl, ?_⟩, ?_⟩
        · cases forward with
          | true => simp [EdgeRecord.near]
          | false => simp [EdgeRecord.near, isEdge.distinct.symm]
        · cases forward with
          | true => simp [EvidenceHop.step, EdgeRecord.near, EdgeRecord.far, rowTo.recordId]
          | false =>
              simp [EvidenceHop.step, EdgeRecord.near, EdgeRecord.far, isEdge.distinct.symm,
                rowFrom.recordId]
      obtain ⟨hop, isHop, index, takes, step⟩ := hop
      refine ⟨hops ++ [hop], ?_, .step forward chain isEdge takes (index.trans length.symm), ?_, ?_⟩
      · rw [List.zipIdx_append, List.mapM_append, made]
        simp [isHop]
      · simp [length]
      · rw [List.map_append, List.map_append, steps, List.map_singleton, step]
        rfl

end Links

section Reordered

variable {records others : List GraphRecord}

/-- Reordering the records keeps the last event of an ID. -/
private theorem lastEvent_concerns {p : GraphRecord → Bool} {id : String}
    (concerned : ∀ record, p record = true → record.writes id = true)
    (reordered : Reordered records others) : lastEvent p others = lastEvent p records := by
  have last : ∀ records : List GraphRecord,
      lastEvent p (records.filter (GraphRecord.concerns id)) = lastEvent p records :=
    fun records => lastEvent_filter records fun record _ holds => by
      simp [GraphRecord.concerns, concerned record holds]
  rw [← last others, reordered.same, last]

/-- The last node of an ID stays the last. -/
theorem Reordered.lastEvent_writesNode (reordered : Reordered records others) (id : String) :
    lastEvent (GraphRecord.writesNode id) others = lastEvent (GraphRecord.writesNode id) records :=
  lastEvent_concerns (fun record writes => by
    cases record with
    | node node => exact writes
    | edge edge => cases writes
    | tombstone tombstone => cases writes) reordered

/-- The last edge of an ID stays the last. -/
theorem Reordered.lastEvent_writesEdge (reordered : Reordered records others) (id : String) :
    lastEvent (GraphRecord.writesEdge id) others = lastEvent (GraphRecord.writesEdge id) records :=
  lastEvent_concerns (fun record writes => by
    cases record with
    | edge edge => exact writes
    | node node => cases writes
    | tombstone tombstone => cases writes) reordered

/-- So it keeps the live ends. -/
theorem Reordered.liveEndpoint (reordered : Reordered records others) {id : String} :
    LiveEndpoint others id ↔ LiveEndpoint records id := by
  rw [LiveEndpoint, LiveEndpoint, reordered.deleted]
  simp only [reordered.perm.mem_iff]

/-- It keeps the evidence edges. -/
theorem Reordered.evidenceEdge (reordered : Reordered records others) {edge : EdgeRecord} :
    EvidenceEdge others edge ↔ EvidenceEdge records edge := by
  constructor
  · rintro ⟨latest, live, traversed, distinct, source, target⟩
    exact ⟨reordered.lastEvent_writesEdge _ ▸ latest, reordered.deleted _ ▸ live, traversed,
      distinct, reordered.liveEndpoint.mp source, reordered.liveEndpoint.mp target⟩
  · rintro ⟨latest, live, traversed, distinct, source, target⟩
    exact ⟨(reordered.lastEvent_writesEdge _).trans latest, (reordered.deleted _).trans live,
      traversed, distinct, reordered.liveEndpoint.mpr source, reordered.liveEndpoint.mpr target⟩

/-- It keeps the map of live nodes. -/
theorem Reordered.liveNodesById (reordered : Reordered records others) :
    liveNodesById (Liveness.new others) others = liveNodesById (Liveness.new records) records := by
  refine Std.ExtTreeMap.ext_getElem? fun id => Option.ext fun node => ?_
  rw [getElem?_liveNodesById, getElem?_liveNodesById, reordered.deleted,
    reordered.lastEvent_writesNode]

/-- It keeps the sorted lists, as no two entries of one are equal in rank. -/
theorem Reordered.sortedAdjacency (reordered : Reordered records others) (node : String) :
    sortedAdjacency others node = sortedAdjacency records node := by
  refine @eq_of_ascending _ adjacencyOrder _ _ _
    (dedupBy_pairwise (pairwise_insertionSort_cmp adjacencyOrder _))
    (dedupBy_pairwise (pairwise_insertionSort_cmp adjacencyOrder _)) fun adj => ?_
  simp only [mem_sortedAdjacency, reordered.evidenceEdge]

/-- So it keeps the search. -/
theorem Reordered.evidenceSearch (reordered : Reordered records others)
    (sourceId targetId : String) :
    evidenceSearch others sourceId targetId = evidenceSearch records sourceId targetId := by
  have links : witnessLinks others = witnessLinks records := by
    funext node
    rw [witnessLinks, witnessLinks, reordered.sortedAdjacency]
  rw [Egregore.evidenceSearch, Egregore.evidenceSearch, links, reordered.perm.length_eq]

/-- The order of the slice does not change the answer. -/
theorem Reordered.evidencePath (reordered : Reordered records others)
    (sourceId targetId : String) :
    evidencePath others sourceId targetId = evidencePath records sourceId targetId := by
  have resolve : ∀ byId id side, resolveEndpoint (Liveness.new others) byId id side =
      resolveEndpoint (Liveness.new records) byId id side := by
    intro byId id side
    rw [resolveEndpoint, resolveEndpoint, reordered.deleted]
  simp only [Egregore.evidencePath, resolve, reordered.liveNodesById, reordered.evidenceSearch,
    reordered.perm.length_eq]

end Reordered

section Answer

variable {records : List GraphRecord} {sourceId targetId : String}

/-- The search ends with every node that the goal could be reached through. -/
theorem evidenceSearch_describes (records : List GraphRecord) (sourceId targetId : String) :
    ∃ last, (evidenceSearch records sourceId targetId).Describes pairOrder evidenceStep
        (witnessLinks records) EvidenceDiscovery.parent sourceId last ∧
      ((∀ node, ¬ AtLevel (witnessLinks records) sourceId last node) ∨
        targetId ∈ (evidenceSearch records sourceId targetId).visited) := by
  have bound : (evidenceTargets records).length ≤ 2 * records.length := length_evidenceTargets
  exact KeyedSearch.start_describes.toward parent_of_mem_witnessLinks mem_evidenceTargets targetId
    (by omega)

/-- The search visits what a chain of evidence leads to. -/
theorem visited_evidenceSearch_iff :
    targetId ∈ (evidenceSearch records sourceId targetId).visited ↔
      ∃ steps, EvidenceChain records sourceId steps targetId := by
  obtain ⟨last, described, ended⟩ := evidenceSearch_describes records sourceId targetId
  rw [described.visited_iff ended]
  simp only [walk_iff_trail, ← exists_trail_iff]
  constructor
  · rintro ⟨length, links, trail, -⟩
    exact ⟨_, links, trail, rfl⟩
  · rintro ⟨steps, links, trail, -⟩
    exact ⟨_, links, trail, rfl⟩

/-- The hops of a least trail are a least shortest path. -/
theorem leastEvidencePath_of_leastTrail {links : List (String × EvidenceDiscovery)}
    {path : EvidencePath} (source : IsRow records sourceId path.source)
    (target : IsRow records targetId path.target)
    (least : LeastTrail (witnessLinks records) sourceId pairOrder evidenceStep links targetId)
    (hops : HopChain records sourceId path.hops targetId)
    (length : path.hops.length = links.length)
    (steps : path.hops.map EvidenceHop.step = links.map evidenceStep) :
    LeastEvidencePath records sourceId targetId path where
  source := source
  target := target
  hops := hops
  steps := exists_trail_iff.mp ⟨links, least.trail, steps.symm⟩
  shortest others chain := by
    obtain ⟨links', trail, rfl⟩ := exists_trail_iff.mpr chain
    rw [length, List.length_map]
    by_contra shorter
    exact least.shortest.2 links'.length (by omega) (walk_iff_trail.mpr ⟨links', trail, rfl⟩)
  least others chain same := by
    obtain ⟨links', trail, rfl⟩ := exists_trail_iff.mpr chain
    rw [steps]
    exact least.least links' trail (by simpa [length] using same)

/-- What `evidence_path` answers between two different live nodes. -/
theorem evidencePath_answers (from_ : LiveEndpoint records sourceId)
    (to_ : LiveEndpoint records targetId) (distinct : sourceId ≠ targetId) :
    EvidencePathLaw records sourceId targetId := by
  obtain ⟨source, foundSource, rowSource⟩ := from_.row
  obtain ⟨target, foundTarget, rowTarget⟩ := to_.row
  have resolve : ∀ side, resolveEndpoint (Liveness.new records)
      (liveNodesById (Liveness.new records) records) sourceId side = .ok source ∧
      resolveEndpoint (Liveness.new records)
        (liveNodesById (Liveness.new records) records) targetId side = .ok target := by
    intro side
    simp only [resolveEndpoint, foundSource, foundTarget, and_self]
  refine ⟨fun connected => ?_, fun apart => ?_, fun others reordered =>
    reordered.evidencePath sourceId targetId⟩
  · have visited := visited_evidenceSearch_iff.mpr connected
    obtain ⟨last, described, -⟩ := evidenceSearch_describes records sourceId targetId
    obtain ⟨links, chain, least⟩ := described.chainTo mem_evidenceTargets visited
      length_evidenceTargets
    obtain ⟨hops, made, isChain, length, steps⟩ := hops_of_trail least.trail
    refine ⟨⟨projectNodeRow source, projectNodeRow target, hops, edgeClasses.1, edgeClasses.2⟩, ?_,
      leastEvidencePath_of_leastTrail rowSource rowTarget least isChain length steps⟩
    rw [Std.ExtTreeSet.mem_iff_contains] at visited
    simp [evidencePath, distinct, (resolve _).1, (resolve _).2, visited, chain, made]
  · have fresh : (evidenceSearch records sourceId targetId).visited.contains targetId = false := by
      rw [← Bool.not_eq_true, ← Std.ExtTreeSet.mem_iff_contains, visited_evidenceSearch_iff]
      exact apart
    refine ⟨projectNodeRow source, projectNodeRow target, edgeClasses.1, edgeClasses.2, ?_⟩
    simp [evidencePath, distinct, (resolve _).1, (resolve _).2, fresh]

end Answer

/-- An observation of a symbol and a run that failed on it. -/
def observedFailure : List GraphRecord := [
  .node { id := "observation", kind := .observation, schemaVersion := 1 },
  .node { id := "symbol", kind := .symbol, schemaVersion := 1 },
  .node { id := "run", kind := .commandRun, schemaVersion := 1 },
  .edge {
    id := "observes"
    schemaVersion := 1
    label := .observes
    source := "observation"
    target := "symbol" },
  .edge {
    id := "fails"
    schemaVersion := 1
    label := .failedOn
    source := "run"
    target := "symbol" }]

/-- The law at a failure that was observed. -/
theorem observedFailure_law : EvidencePathLaw observedFailure "observation" "run" :=
  evidencePath_answers ⟨⟨_, List.mem_cons_self, rfl⟩, by decide⟩
    ⟨⟨_, List.mem_cons_of_mem _ (List.mem_cons_of_mem _ List.mem_cons_self), rfl⟩,
      by decide⟩ (by decide)

end Egregore
