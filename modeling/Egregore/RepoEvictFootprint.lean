import Egregore.RepoEvict

/-!
# The footprint of a repository

Which records an eviction takes. A repository reaches the nodes without an owner that evidence
edges join to its own nodes, directly or through further nodes without an owner. Its footprint
is what it owns and what it alone reaches. `planEviction_footprint` says of each record of a
slice what the plan does with it.
-/

namespace Egregore

open Base

/-! ## Reach -/

section Reach

variable (nodes : StrMap NodeRecord) (edges : StrMap EdgeRecord) (owner : StrMap String)

/-- An evidence edge between known nodes, in one direction or the other. -/
def Joined (id other : String) : Prop :=
  ∃ edge ∈ edges.toList.map Prod.snd, isEvidenceEdge edge.label ∧
    edge.source ∈ nodes ∧ edge.target ∈ nodes ∧
      (edge.source = id ∧ edge.target = other ∨ edge.target = id ∧ edge.source = other)

/-- Evidence leads from a node of the repository to a node without an owner, through nodes
without an owner. -/
inductive EvidenceReached (repo : String) : String → Prop where
  | first {id other : String} : owner[id]? = some repo → Joined nodes edges id other →
      owner[other]? = none → EvidenceReached repo other
  | onward {id other : String} : EvidenceReached repo id → Joined nodes edges id other →
      owner[other]? = none → EvidenceReached repo other

variable {nodes edges owner}

/-- Evidence joins both of its ends. -/
theorem Joined.symm {id other : String} (joined : Joined nodes edges id other) :
    Joined nodes edges other id := by
  obtain ⟨edge, listed, evidence, source, target, ends⟩ := joined
  exact ⟨edge, listed, evidence, source, target, ends.symm.imp And.symm And.symm⟩

/-- Only records without an owner are reached by evidence. -/
theorem EvidenceReached.unowned {repo id : String}
    (reached : EvidenceReached nodes edges owner repo id) :
    owner[id]? = none := by
  cases reached with
  | first _ _ unowned => exact unowned
  | onward _ _ unowned => exact unowned

/-- An evidence edge between known nodes links them both ways. -/
theorem mem_evidenceLinks {edge : EdgeRecord} {id other : String} :
    (id, other) ∈ evidenceLinks nodes edge ↔
      isEvidenceEdge edge.label ∧ edge.source ∈ nodes ∧ edge.target ∈ nodes ∧
        (edge.source = id ∧ edge.target = other ∨ edge.target = id ∧ edge.source = other) := by
  unfold evidenceLinks
  split
  · next known =>
      simp only [Bool.and_eq_true, Std.ExtTreeMap.contains_iff_mem] at known
      simp only [List.mem_cons, Prod.mk.injEq, List.not_mem_nil, or_false, known, true_and]
      constructor
      · rintro (⟨rfl, rfl⟩ | ⟨rfl, rfl⟩)
        · exact .inl ⟨rfl, rfl⟩
        · exact .inr ⟨rfl, rfl⟩
      · rintro (⟨rfl, rfl⟩ | ⟨rfl, rfl⟩)
        · exact .inl ⟨rfl, rfl⟩
        · exact .inr ⟨rfl, rfl⟩
  · next unknown =>
      simp only [Bool.and_eq_true, Std.ExtTreeMap.contains_iff_mem, and_assoc] at unknown
      simp only [List.not_mem_nil, false_iff]
      rintro ⟨evidence, source, target, -⟩
      exact unknown ⟨evidence, source, target⟩

/-- The adjacency is the joined nodes. -/
theorem mem_evidenceAdjacency {id other : String} :
    other ∈ (evidenceAdjacency nodes edges).getD id [] ↔ Joined nodes edges id other := by
  rw [evidenceAdjacency, getD_foldl_pushEntry, List.filterMap_some]
  simp only [List.mem_map, List.mem_filter, List.mem_flatMap, decide_eq_true_eq]
  constructor
  · rintro ⟨⟨source, target⟩, ⟨⟨edge, listed, link⟩, rfl⟩, rfl⟩
    exact ⟨edge, List.mem_map.mpr listed, mem_evidenceLinks.mp link⟩
  · rintro ⟨edge, listed, ends⟩
    exact ⟨(id, other), ⟨⟨edge, List.mem_map.mp listed, mem_evidenceLinks.mpr ends⟩, rfl⟩, rfl⟩

/-- So the ends have entries. -/
theorem mem_keys_evidenceAdjacency {id other : String} (joined : Joined nodes edges id other) :
    id ∈ (evidenceAdjacency nodes edges).keys := by
  rw [Std.ExtTreeMap.mem_keys]
  by_contra unknown
  have member := mem_evidenceAdjacency.mpr joined
  rw [Std.ExtTreeMap.getD_eq_fallback unknown] at member
  exact List.not_mem_nil member

section Walk

/-- What the walk meets after a node. -/
theorem mem_next {id other : String} :
    other ∈ (((evidenceAdjacency nodes edges).getD id []).filter
        fun neighbor => !owner.contains neighbor) ↔
      Joined nodes edges id other ∧ owner[other]? = none := by
  rw [List.mem_filter, mem_evidenceAdjacency, Std.ExtTreeMap.contains_eq_isSome_getElem?,
    Bool.not_eq_true', Option.isSome_eq_false_iff, Option.isNone_iff_eq_none]

/-- The walk from the nodes of a repository meets what the repository reaches. -/
theorem met_iff_reached {repo id : String} :
    (∃ source ∈ (owner.toList.filter fun entry => entry.2 = repo).map Prod.fst,
      ∃ last, Reaches (fun node => ((evidenceAdjacency nodes edges).getD node []).filter
          fun neighbor => !owner.contains neighbor) source last ∧
        id ∈ ((evidenceAdjacency nodes edges).getD last []).filter
          fun neighbor => !owner.contains neighbor) ↔
      EvidenceReached nodes edges owner repo id := by
  have isSource : ∀ source,
      source ∈ (owner.toList.filter fun entry => entry.2 = repo).map Prod.fst ↔
        owner[source]? = some repo := by
    intro source
    simp [Std.ExtTreeMap.mem_toList_iff_getElem?_eq_some]
  constructor
  · rintro ⟨source, listed, last, path, met⟩
    obtain ⟨joined, unowned⟩ := mem_next.mp met
    have along : last = source ∨ EvidenceReached nodes edges owner repo last := by
      clear met joined unowned
      induction path with
      | refl => exact .inl rfl
      | tail _ step ih =>
          obtain ⟨joined, unowned⟩ := mem_next.mp step
          rcases ih with rfl | reached
          · exact .inr (.first ((isSource _).mp listed) joined unowned)
          · exact .inr (.onward reached joined unowned)
    rcases along with rfl | reached
    · exact .first ((isSource _).mp listed) joined unowned
    · exact .onward reached joined unowned
  · intro reached
    induction reached with
    | first owned joined unowned =>
        exact ⟨_, (isSource _).mpr owned, _, .refl, mem_next.mpr ⟨joined, unowned⟩⟩
    | onward _ joined unowned ih =>
        obtain ⟨source, listed, last, path, met⟩ := ih
        exact ⟨source, listed, _, .tail path met, mem_next.mpr ⟨joined, unowned⟩⟩

variable (nodes edges owner) in
/-- The walks add a link from each node to each repository that reaches it. -/
theorem exists_reachLinks (repositoryIds : List String) (reachedBy : StrMap StrSet) :
    ∃ links : List (String × String),
      repositoryIds.foldl (fun reachedBy repo =>
        let seeds := (owner.toList.filter fun entry => entry.2 = repo).map Prod.fst
        (flood (fun node => ((evidenceAdjacency nodes edges).getD node []).filter
            fun neighbor => !owner.contains neighbor)
          (fun neighbor reachedBy => insertLink reachedBy (neighbor, repo))
          (seeds.length + (evidenceAdjacency nodes edges).keys.length) seeds seeds
          reachedBy).2) reachedBy = links.foldl insertLink reachedBy ∧
      ∀ id repo, (id, repo) ∈ links ↔
        repo ∈ repositoryIds ∧ EvidenceReached nodes edges owner repo id := by
  induction repositoryIds generalizing reachedBy with
  | nil => exact ⟨[], rfl, by simp⟩
  | cons repo repositoryIds ih =>
      have inside : ∀ node, ∀ successor ∈ ((evidenceAdjacency nodes edges).getD node []).filter
          (fun neighbor => !owner.contains neighbor),
          successor ∈ (evidenceAdjacency nodes edges).keys := fun node successor member =>
        mem_keys_evidenceAdjacency (mem_next.mp member).1.symm
      obtain ⟨met, marked, members⟩ := exists_meetings inside
        (fun neighbor reachedBy => insertLink reachedBy (neighbor, repo))
        ((owner.toList.filter fun entry => entry.2 = repo).map Prod.fst) reachedBy
      obtain ⟨links, folded, linked⟩ := ih (met.foldl
        (fun reachedBy neighbor => insertLink reachedBy (neighbor, repo)) reachedBy)
      refine ⟨met.map (·, repo) ++ links, ?_, fun id other => ?_⟩
      · rw [List.foldl_cons, marked, folded, List.foldl_append, List.foldl_map]
      · rw [List.mem_append, linked, List.mem_cons]
        have here : (id, other) ∈ met.map (·, repo) ↔
            other = repo ∧ EvidenceReached nodes edges owner repo id := by
          rw [← met_iff_reached, ← members]
          simp only [List.mem_map, Prod.mk.injEq]
          constructor
          · rintro ⟨node, member, rfl, rfl⟩
            exact ⟨rfl, member⟩
          · rintro ⟨rfl, member⟩
            exact ⟨id, member, rfl, rfl⟩
        rw [here]
        constructor
        · rintro (⟨rfl, reached⟩ | ⟨listed, reached⟩)
          · exact ⟨.inl rfl, reached⟩
          · exact ⟨.inr listed, reached⟩
        · rintro ⟨rfl | listed, reached⟩
          · exact .inl ⟨rfl, reached⟩
          · exact .inr ⟨listed, reached⟩

variable {repositoryIds : List String}

/-- The walk records the repositories of the index that reach a node. -/
theorem mem_walkReachability {id repo : String} :
    repo ∈ ((walkReachability repositoryIds owner (evidenceAdjacency nodes edges))[id]?).getD ∅ ↔
      repo ∈ repositoryIds ∧ EvidenceReached nodes edges owner repo id := by
  obtain ⟨links, folded, linked⟩ := exists_reachLinks nodes edges owner repositoryIds ∅
  rw [walkReachability, folded, mem_foldl_insertLink, linked]

/-- A node that is recorded is reached. -/
theorem exists_reached_of_walked {id : String} {repos : StrSet}
    (walked : (walkReachability repositoryIds owner (evidenceAdjacency nodes edges))[id]? =
      some repos) : ∃ repo, repo ∈ repos := by
  obtain ⟨links, folded, -⟩ := exists_reachLinks nodes edges owner repositoryIds ∅
  rw [walkReachability, folded] at walked
  have nonempty := foldl_insertLink_ne_empty walked
  by_contra none
  push Not at none
  exact nonempty (Std.ExtTreeSet.eq_empty_iff_forall_not_mem.mpr none)

end Walk

end Reach

/-! ## Shares -/

section Shares

/-- The map of nodes holds nodes of the slice, under their IDs. -/
theorem nodeRecords_eq_some {records : List GraphRecord} {id : String} {node : NodeRecord}
    (known : (nodeRecords records)[id]? = some node) : node ∈ nodesOf records ∧ node.id = id := by
  have collected : nodeRecords records =
      (nodesOf records).foldl (insertEntry fun node => some (node.id, node)) ∅ := rfl
  rw [collected, getElem?_foldl_insertEntry, Std.ExtTreeMap.getElem?_empty, Option.or_none,
    Option.map_eq_some_iff] at known
  obtain ⟨entry, last, rfl⟩ := known
  have member := List.mem_of_getLast? last
  simp only [List.mem_filter, List.mem_filterMap, Option.some.injEq, decide_eq_true_eq] at member
  obtain ⟨⟨node, listed, rfl⟩, same⟩ := member
  exact ⟨listed, same⟩

/-- So does the map of edges. -/
theorem edgeRecords_eq_some {records : List GraphRecord} {id : String} {edge : EdgeRecord}
    (known : (edgeRecords records)[id]? = some edge) : edge ∈ edgesOf records ∧ edge.id = id := by
  have collected : edgeRecords records =
      (edgesOf records).foldl (insertEntry fun edge => some (edge.id, edge)) ∅ := rfl
  rw [collected, getElem?_foldl_insertEntry, Std.ExtTreeMap.getElem?_empty, Option.or_none,
    Option.map_eq_some_iff] at known
  obtain ⟨entry, last, rfl⟩ := known
  have member := List.mem_of_getLast? last
  simp only [List.mem_filter, List.mem_filterMap, Option.some.injEq, decide_eq_true_eq] at member
  obtain ⟨⟨edge, listed, rfl⟩, same⟩ := member
  exact ⟨listed, same⟩

/-- A set whose only member is the target, as the partition tests it. -/
theorem size_eq_one_iff {repos : StrSet} {target : String} :
    (repos.size = 1 ∧ target ∈ repos) ↔ ∀ other, other ∈ repos ↔ other = target := by
  rw [← only_iff]
  constructor
  · rintro ⟨single, member⟩
    have some_ : ∃ least, repos.min? = some least := by
      rw [← Option.isSome_iff_exists, Std.ExtTreeSet.isSome_min?_iff_ne_empty]
      rintro rfl
      exact Std.ExtTreeSet.not_mem_empty member
    obtain ⟨least, found⟩ := some_
    have only : (if repos.size = 1 then repos.min? else none) = some least := by
      rw [if_pos single, found]
    rw [only, (only_iff.mp only target).mp member]
  · intro only
    refine ⟨?_, (only_iff.mp only target).mpr rfl⟩
    by_contra several
    rw [if_neg several] at only
    cases only

variable {nodes : StrMap NodeRecord} {edges : StrMap EdgeRecord} {owner : StrMap String}
variable {repositoryIds : List String} {env : EvictionEnv} {target : String} {node : NodeRecord}

/-- What a repository owns, and what it alone reaches. -/
def InFootprint (nodes : StrMap NodeRecord) (edges : StrMap EdgeRecord) (owner : StrMap String)
    (target id : String) : Prop :=
  owner[id]? = some target ∨
    EvidenceReached nodes edges owner target id ∧
      ∀ repo, EvidenceReached nodes edges owner repo id → repo = target

/-- Evidence leads to the node only from repositories that are listed. -/
def Accounted (nodes : StrMap NodeRecord) (edges : StrMap EdgeRecord) (owner : StrMap String)
    (repositoryIds : List String) (id : String) : Prop :=
  ∀ repo, EvidenceReached nodes edges owner repo id → repo ∈ repositoryIds

section Cases

variable (ordinary : isEvictionEvent env node = false)
include ordinary

/-- An owned node goes with its own repository, and with no other. -/
theorem nodeShare_of_owned {reachedBy : StrMap StrSet} {repo : String}
    (owned : owner[node.id]? = some repo) :
    nodeShare env target owner reachedBy node = if repo = target then .evicted else .untouched := by
  simp [nodeShare, ordinary, owned]

variable (accounted : Accounted nodes edges owner repositoryIds node.id)
  (unowned : owner[node.id]? = none)
include accounted unowned

/-- The part of a node without an owner, by what reaches it. -/
theorem nodeShare_of_unowned :
    (nodeShare env target owner
        (walkReachability repositoryIds owner (evidenceAdjacency nodes edges)) node = .evicted ↔
      EvidenceReached nodes edges owner target node.id ∧
        ∀ repo, EvidenceReached nodes edges owner repo node.id → repo = target) ∧
    (nodeShare env target owner
        (walkReachability repositoryIds owner (evidenceAdjacency nodes edges)) node = .shared ↔
      EvidenceReached nodes edges owner target node.id ∧
        ∃ repo ≠ target, EvidenceReached nodes edges owner repo node.id) ∧
    (nodeShare env target owner
        (walkReachability repositoryIds owner (evidenceAdjacency nodes edges)) node =
          .unattributable ↔
      ∀ repo, ¬ EvidenceReached nodes edges owner repo node.id) := by
  have members : ∀ repo, repo ∈ ((walkReachability repositoryIds owner
      (evidenceAdjacency nodes edges))[node.id]?).getD ∅ ↔
        EvidenceReached nodes edges owner repo node.id := fun repo =>
    mem_walkReachability.trans ⟨And.right, fun reached => ⟨accounted repo reached, reached⟩⟩
  unfold nodeShare
  rw [ordinary, unowned]
  cases walked : (walkReachability repositoryIds owner
      (evidenceAdjacency nodes edges))[node.id]? with
  | none =>
      have none_ : ∀ repo, ¬ EvidenceReached nodes edges owner repo node.id := fun repo reached => by
        have member := (members repo).mpr reached
        rw [walked, Option.getD_none] at member
        exact Std.ExtTreeSet.not_mem_empty member
      simp [none_]
  | some repos =>
      simp only [walked, Option.getD_some] at members
      obtain ⟨some_, inside⟩ := exists_reached_of_walked walked
      have reached := (members some_).mp inside
      have alone : (repos.size = 1 ∧ target ∈ repos) ↔
          EvidenceReached nodes edges owner target node.id ∧
            ∀ repo, EvidenceReached nodes edges owner repo node.id → repo = target := by
        rw [size_eq_one_iff]
        simp only [members]
        constructor
        · exact fun only => ⟨(only target).mpr rfl, fun repo => (only repo).mp⟩
        · rintro ⟨own, only⟩ repo
          exact ⟨only repo, fun same => same ▸ own⟩
      have several : (¬ (repos.size = 1 ∧ target ∈ repos) ∧ target ∈ repos) ↔
          EvidenceReached nodes edges owner target node.id ∧
            ∃ repo ≠ target, EvidenceReached nodes edges owner repo node.id := by
        rw [alone, members]
        constructor
        · rintro ⟨others, own⟩
          by_contra none_
          push Not at none_
          refine others ⟨own, fun repo reached => ?_⟩
          by_contra differs
          exact none_ own repo differs reached
        · rintro ⟨own, repo, differs, other⟩
          exact ⟨fun only => differs (only.2 repo other), own⟩
      have someone : ¬ ∀ repo, ¬ EvidenceReached nodes edges owner repo node.id :=
        fun none_ => none_ some_ reached
      rw [← alone, ← several]
      by_cases only : repos.size = 1 ∧ target ∈ repos
      · simp [only, someone]
      · by_cases own : target ∈ repos
        · have many : repos.size ≠ 1 := fun single => only ⟨single, own⟩
          simp [own, many, someone]
        · simp [own, someone]

end Cases

end Shares

/-! ## Plans over one slice -/

section Slice

variable (env : EvictionEnv) (records : List GraphRecord)

/-- The index of a slice that resolves its own selectors. -/
def sliceIndex : RepositoryIndex := RepositoryIndex.build (strippedView env records)

/-- The owners of the nodes of the slice. -/
def sliceOwner : StrMap String := currentOwner (nodeRecords records) (sliceIndex env records)

/-- The repositories that reach each node of the slice. -/
def sliceReach : StrMap StrSet :=
  walkReachability (sliceIndex env records).repositoryIds (sliceOwner env records)
    (evidenceAdjacency (nodeRecords records) (edgeRecords records))

/-- The nodes of one part of the slice. -/
def sliceShare (target : String) (share : NodeShare) : List NodeRecord :=
  nodesWith (nodeRecords records) env target (sliceOwner env records) (sliceReach env records)
    share

/-- The records that an eviction takes from the slice. -/
def sliceEvicted (target : String) : List EvictedRecord :=
  sortedById ((sliceShare env records target .evicted).map
      (fun node => projection (.node node)) ++
    (evictedEdges (edgeRecords records) (sliceShare env records target .evicted)).map
      fun edge => projection (.edge edge))

/-- A plan takes the footprint of its repository: the fate of each node of the slice, of each
edge, and of what belongs to other repositories. -/
structure TakesFootprint (plan : EvictionPlan) : Prop where
  evicted : ∀ (id : String) (node : NodeRecord), (nodeRecords records)[id]? = some node →
    isEvictionEvent env node = false →
    Accounted (nodeRecords records) (edgeRecords records) (sliceOwner env records)
      (sliceIndex env records).repositoryIds id →
    (projection (.node node) ∈ plan.evicted ↔
      InFootprint (nodeRecords records) (edgeRecords records) (sliceOwner env records)
        plan.repositoryId id)
  shared : ∀ (id : String) (node : NodeRecord), (nodeRecords records)[id]? = some node →
    isEvictionEvent env node = false →
    Accounted (nodeRecords records) (edgeRecords records) (sliceOwner env records)
      (sliceIndex env records).repositoryIds id →
    (projection (.node node) ∈ plan.sharedCrossRepo ↔
      EvidenceReached (nodeRecords records) (edgeRecords records) (sliceOwner env records)
          plan.repositoryId id ∧
        ∃ repo ≠ plan.repositoryId, EvidenceReached (nodeRecords records) (edgeRecords records)
          (sliceOwner env records) repo id)
  unattributable : ∀ (id : String) (node : NodeRecord), (nodeRecords records)[id]? = some node →
    isEvictionEvent env node = false →
    Accounted (nodeRecords records) (edgeRecords records) (sliceOwner env records)
      (sliceIndex env records).repositoryIds id →
    (projection (.node node) ∈ plan.unattributable ↔
      (sliceOwner env records)[id]? = none ∧
        ∀ repo, ¬ EvidenceReached (nodeRecords records) (edgeRecords records) (sliceOwner env records)
          repo id)
  events : ∀ (id : String) (node : NodeRecord), (nodeRecords records)[id]? = some node →
    isEvictionEvent env node = true → projection (.node node) ∉ plan.evicted
  edges : ∀ (id : String) (edge : EdgeRecord), (edgeRecords records)[id]? = some edge →
    (projection (.edge edge) ∈ plan.evicted ↔
      ∃ node, (nodeRecords records)[edge.source]? = some node ∧
        projection (.node node) ∈ plan.evicted)
  spared : ∀ tombstone, .tombstone tombstone ∈ evictionRecords env plan →
    (∀ node repo, (nodeRecords records)[tombstone.deletedId]? = some node →
      (edgeRecords records)[tombstone.deletedId]? = none →
      (sliceOwner env records)[tombstone.deletedId]? = some repo → repo = plan.repositoryId) ∧
    ∀ edge repo, (edgeRecords records)[tombstone.deletedId]? = some edge →
      (nodeRecords records)[tombstone.deletedId]? = none →
      (sliceOwner env records)[edge.source]? = some repo → repo = plan.repositoryId

/-- A plan that repeats an eviction: the event is in the slice, all that is left of the
footprint are temporal snapshots, and nothing is taken or reported. -/
structure RepeatsEviction (plan : EvictionPlan) : Prop where
  event : ∃ node ∈ nodesOf records, isEventOf env plan.repositoryId node
  snapshots : ∀ (id : String) (node : NodeRecord), (nodeRecords records)[id]? = some node →
    isEvictionEvent env node = false →
    Accounted (nodeRecords records) (edgeRecords records) (sliceOwner env records)
      (sliceIndex env records).repositoryIds id →
    InFootprint (nodeRecords records) (edgeRecords records) (sliceOwner env records)
      plan.repositoryId id →
    node.temporal.isSome
  edges : ∀ (edge : EdgeRecord) (node : NodeRecord),
    (edgeRecords records)[edge.id]? = some edge →
    (nodeRecords records)[edge.source]? = some node → isEvictionEvent env node = false →
    Accounted (nodeRecords records) (edgeRecords records) (sliceOwner env records)
      (sliceIndex env records).repositoryIds edge.source →
    InFootprint (nodeRecords records) (edgeRecords records) (sliceOwner env records)
      plan.repositoryId edge.source →
    ∃ snapshot, (nodeRecords records)[edge.id]? = some snapshot ∧ snapshot.temporal.isSome
  nothing : plan.evicted = [] ∧ plan.sharedCrossRepo = [] ∧ plan.unattributable = [] ∧
    evictionRecords env plan = []

variable {env records} {target : String}

/-- Sorting by ID loses no record. -/
theorem mem_sortedById {taken : List EvictedRecord} {record : EvictedRecord} :
    record ∈ sortedById taken ↔ record ∈ taken :=
  (List.perm_insertionSort _ _).mem_iff

/-- The nodes of a share are those with that fate. -/
theorem mem_sliceShare {share : NodeShare} {node : NodeRecord} :
    node ∈ sliceShare env records target share ↔
      (nodeRecords records)[node.id]? = some node ∧
        nodeShare env target (sliceOwner env records) (sliceReach env records) node = share := by
  simp only [sliceShare, nodesWith, List.mem_filter, List.mem_map, Prod.exists, exists_eq_right,
    decide_eq_true_eq, Std.ExtTreeMap.mem_toList_iff_getElem?_eq_some]
  constructor
  · rintro ⟨⟨id, known⟩, part⟩
    exact ⟨(nodeRecords_eq_some known).2.symm ▸ known, part⟩
  · rintro ⟨known, part⟩
    exact ⟨⟨_, known⟩, part⟩

/-- No kind of node is called an edge. -/
theorem asStr_ne_edge (kind : NodeKind) : kind.asStr ≠ "edge" := by
  cases kind <;> decide

/-- A node is among projected nodes when it is among the nodes. -/
theorem projection_mem_map {share : NodeShare} {id : String} {node : NodeRecord}
    (known : (nodeRecords records)[id]? = some node) :
    projection (.node node) ∈ (sliceShare env records target share).map
        (fun node => projection (.node node)) ↔
      nodeShare env target (sliceOwner env records) (sliceReach env records) node = share := by
  obtain ⟨-, rfl⟩ := nodeRecords_eq_some known
  rw [List.mem_map]
  constructor
  · rintro ⟨other, member, same⟩
    obtain ⟨known', part⟩ := mem_sliceShare.mp member
    have id_eq : other.id = node.id := congrArg EvictedRecord.recordId same
    rw [id_eq, known, Option.some.injEq] at known'
    rwa [known']
  · exact fun part => ⟨node, mem_sliceShare.mpr ⟨known, part⟩, rfl⟩

/-- A node is evicted when its fate is that. -/
theorem node_mem_sliceEvicted {id : String} {node : NodeRecord}
    (known : (nodeRecords records)[id]? = some node) :
    projection (.node node) ∈ sliceEvicted env records target ↔
      nodeShare env target (sliceOwner env records) (sliceReach env records) node = .evicted := by
  rw [sliceEvicted, mem_sortedById, List.mem_append, projection_mem_map known]
  refine or_iff_left fun member => ?_
  obtain ⟨edge, -, same⟩ := List.mem_map.mp member
  exact asStr_ne_edge node.kind (congrArg EvictedRecord.kind same).symm

/-- An edge is evicted with its source. -/
theorem edge_mem_sliceEvicted {id : String} {edge : EdgeRecord}
    (known : (edgeRecords records)[id]? = some edge) :
    projection (.edge edge) ∈ sliceEvicted env records target ↔
      ∃ node, (nodeRecords records)[edge.source]? = some node ∧
        nodeShare env target (sliceOwner env records) (sliceReach env records) node =
          .evicted := by
  obtain ⟨-, rfl⟩ := edgeRecords_eq_some known
  rw [sliceEvicted, mem_sortedById, List.mem_append, or_iff_right fun member => by
    obtain ⟨node, -, same⟩ := List.mem_map.mp member
    exact asStr_ne_edge node.kind (congrArg EvictedRecord.kind same)]
  simp only [List.mem_map, evictedEdges, List.mem_filter, Prod.exists, exists_eq_right,
    Std.ExtTreeMap.mem_toList_iff_getElem?_eq_some, List.contains_iff_mem]
  constructor
  · rintro ⟨other, ⟨⟨id, known'⟩, node, member, source⟩, same⟩
    obtain ⟨-, rfl⟩ := edgeRecords_eq_some known'
    have id_eq : other.id = edge.id := congrArg EvictedRecord.recordId same
    rw [id_eq, known, Option.some.injEq] at known'
    subst known'
    obtain ⟨known', part⟩ := mem_sliceShare.mp member
    exact ⟨node, source ▸ known', part⟩
  · rintro ⟨node, source, part⟩
    have id_eq := (nodeRecords_eq_some source).2
    exact ⟨edge, ⟨⟨_, known⟩, node, mem_sliceShare.mpr ⟨id_eq ▸ source, part⟩, id_eq⟩, rfl⟩

/-- What is taken is a node of the evicted part, or an edge out of one. -/
theorem mem_sliceEvicted {record : EvictedRecord}
    (taken : record ∈ sliceEvicted env records target) :
    (∃ node, (nodeRecords records)[node.id]? = some node ∧ record = projection (.node node)) ∨
      ∃ edge, (edgeRecords records)[edge.id]? = some edge ∧ record = projection (.edge edge) := by
  rw [sliceEvicted, mem_sortedById, List.mem_append, List.mem_map, List.mem_map] at taken
  rcases taken with ⟨node, member, rfl⟩ | ⟨edge, member, rfl⟩
  · exact .inl ⟨node, (mem_sliceShare.mp member).1, rfl⟩
  · refine .inr ⟨edge, ?_, rfl⟩
    simp only [evictedEdges, List.mem_filter, List.mem_map, Prod.exists, exists_eq_right,
      Std.ExtTreeMap.mem_toList_iff_getElem?_eq_some] at member
    obtain ⟨⟨id, known⟩, -⟩ := member
    exact (edgeRecords_eq_some known).2.symm ▸ known

section Fate

variable {id : String} {node : NodeRecord} (known : (nodeRecords records)[id]? = some node)
  (ordinary : isEvictionEvent env node = false)
  (accounted : Accounted (nodeRecords records) (edgeRecords records) (sliceOwner env records)
    (sliceIndex env records).repositoryIds id)
include known ordinary accounted

/-- The evicted nodes are the footprint of the repository. -/
theorem evicted_iff :
    nodeShare env target (sliceOwner env records) (sliceReach env records) node = .evicted ↔
      InFootprint (nodeRecords records) (edgeRecords records) (sliceOwner env records) target
        id := by
  obtain ⟨-, rfl⟩ := nodeRecords_eq_some known
  cases owned : (sliceOwner env records)[node.id]? with
  | none =>
      rw [sliceReach, (nodeShare_of_unowned ordinary accounted owned).1, InFootprint]
      simp [owned]
  | some repo =>
      have unreached : ¬ EvidenceReached (nodeRecords records) (edgeRecords records)
          (sliceOwner env records) target node.id := fun reached => by
        rw [reached.unowned] at owned
        cases owned
      rw [nodeShare_of_owned ordinary owned, InFootprint, owned]
      simp [unreached]

/-- Shared are those that the evidence of another repository reaches too. -/
theorem shared_iff :
    nodeShare env target (sliceOwner env records) (sliceReach env records) node = .shared ↔
      EvidenceReached (nodeRecords records) (edgeRecords records) (sliceOwner env records) target id ∧
        ∃ repo ≠ target, EvidenceReached (nodeRecords records) (edgeRecords records)
          (sliceOwner env records) repo id := by
  obtain ⟨-, rfl⟩ := nodeRecords_eq_some known
  cases owned : (sliceOwner env records)[node.id]? with
  | none => rw [sliceReach, (nodeShare_of_unowned ordinary accounted owned).2.1]
  | some repo =>
      rw [nodeShare_of_owned ordinary owned]
      constructor
      · split <;> exact fun impossible => nomatch impossible
      · rintro ⟨reached, -⟩
        rw [reached.unowned] at owned
        cases owned

/-- Not attributed are those that nobody owns and no evidence reaches. -/
theorem unattributable_iff :
    nodeShare env target (sliceOwner env records) (sliceReach env records) node =
        .unattributable ↔
      (sliceOwner env records)[id]? = none ∧
        ∀ repo, ¬ EvidenceReached (nodeRecords records) (edgeRecords records) (sliceOwner env records)
          repo id := by
  obtain ⟨-, rfl⟩ := nodeRecords_eq_some known
  cases owned : (sliceOwner env records)[node.id]? with
  | none => rw [sliceReach, (nodeShare_of_unowned ordinary accounted owned).2.2]; simp
  | some repo =>
      rw [nodeShare_of_owned ordinary owned]
      simp only [reduceCtorEq, false_and, iff_false]
      split <;> exact fun impossible => nomatch impossible

end Fate

/-- Whether the records to take are all snapshots that the slice retains. -/
def OnlySnapshots (env : EvictionEnv) (records : List GraphRecord) (target : String) : Prop :=
  ∀ record ∈ sliceEvicted env records target, record.recordId ∈
    (((sliceShare env records target .evicted).filter fun node => node.temporal.isSome).map
      fun node => (projection (.node node)).recordId)

/-- With snapshots alone, each evicted record has one. -/
theorem OnlySnapshots.exists_snapshot (only : OnlySnapshots env records target)
    {record : EvictedRecord} (taken : record ∈ sliceEvicted env records target) :
    ∃ snapshot, (nodeRecords records)[record.recordId]? = some snapshot ∧
      snapshot.temporal.isSome := by
  obtain ⟨snapshot, listed, id_eq⟩ := List.mem_map.mp (only record taken)
  obtain ⟨share, temporal⟩ := List.mem_filter.mp listed
  exact ⟨snapshot, id_eq ▸ (mem_sliceShare.mp share).1, temporal⟩

/-- A plan either takes its part of the slice or repeats an eviction. -/
theorem planResolved_cases (now : String) (request : EvictionRequest) {plan : EvictionPlan}
    (planned : planResolved env now records (sliceIndex env records) target request = plan) :
    plan.repositoryId = target ∧
      (plan.alreadyEvicted = false ∧ plan.evicted = sliceEvicted env records target ∧
          plan.sharedCrossRepo = sortedById ((sliceShare env records target .shared).map
            fun node => projection (.node node)) ∧
          plan.unattributable = sortedById ((sliceShare env records target .unattributable).map
            fun node => projection (.node node)) ∨
        OnlySnapshots env records target ∧
          ∃ node ∈ nodesOf records, isEventOf env target node ∧ plan =
            alreadyEvictedPlan env target ((sliceIndex env records).displayOf target) node) := by
  unfold planResolved at planned
  cases event : (nodesOf records).find? (isEventOf env target) with
  | none =>
      rw [event] at planned
      subst planned
      exact ⟨rfl, .inl ⟨rfl, rfl, rfl, rfl⟩⟩
  | some node =>
      simp only [event] at planned
      split at planned
      · subst planned
        exact ⟨rfl, .inl ⟨rfl, rfl, rfl, rfl⟩⟩
      · next none_ =>
          subst planned
          refine ⟨rfl, .inr ⟨fun record taken => ?_, node, List.mem_of_find?_eq_some event,
            List.find?_some event, rfl⟩⟩
          rw [List.any_eq_true] at none_
          by_contra new
          refine none_ ⟨record, taken, ?_⟩
          simpa [sortedById, (List.perm_insertionSort _ _).mem_iff, sliceShare, sliceOwner,
            sliceReach] using new

/-- A request that is valid and resolves is planned for its target. -/
theorem planEviction_of_resolved {now : String} {request : EvictionRequest}
    (valid : validateRequest env request = .ok ())
    (resolved : (sliceIndex env records).resolveSelector (trimmed request.selector) =
      .ok target) :
    planEviction env now records records request =
      .ok (planResolved env now records (sliceIndex env records) target request) := by
  simp only [sliceIndex] at resolved ⊢
  simp only [planEviction, valid, resolved]

/-- Every plan is for a resolved target. -/
theorem planEviction_eq_ok {now : String} {request : EvictionRequest} {plan : EvictionPlan}
    (planned : planEviction env now records records request = .ok plan) :
    ∃ target, planResolved env now records (sliceIndex env records) target request = plan := by
  unfold planEviction at planned
  cases valid : validateRequest env request with
  | error fault => rw [valid] at planned; cases planned
  | ok _ =>
      rw [valid] at planned
      cases resolved : (sliceIndex env records).resolveSelector (trimmed request.selector) with
      | error fault =>
          simp only [sliceIndex] at resolved
          simp [resolved] at planned
      | ok target =>
          simp only [sliceIndex] at resolved
          simp only [resolved, Except.ok.injEq] at planned
          exact ⟨target, planned⟩

/-- An evicted node is owned by no other repository. -/
theorem owner_of_evicted {node : NodeRecord} {repo : String}
    (evicted : nodeShare env target (sliceOwner env records) (sliceReach env records) node =
      .evicted) (owned : (sliceOwner env records)[node.id]? = some repo) : repo = target := by
  unfold nodeShare at evicted
  rw [owned] at evicted
  by_contra other
  simp only [other, if_false] at evicted
  split at evicted <;> cases evicted

/-- The tombstones of a plan end records that it takes. -/
theorem deletedId_mem_evicted {plan : EvictionPlan} {tombstone : TombstoneRecord}
    (written : .tombstone tombstone ∈ evictionRecords env plan) :
    ∃ record ∈ plan.evicted, tombstone.deletedId = record.recordId := by
  unfold evictionRecords at written
  split at written
  · cases written
  · rw [List.mem_append, List.mem_map] at written
    rcases written with event | ⟨record, taken, same⟩
    · split at event
      · cases event
      · simp at event
    · exact ⟨record, taken, by rw [← GraphRecord.tombstone.inj same]; rfl⟩

/-- What a tombstone ends belongs to the repository, where records do not share their ID. -/
theorem spared_of_evicted {tombstone : TombstoneRecord} {record : EvictedRecord}
    (taken : record ∈ sliceEvicted env records target)
    (ends : tombstone.deletedId = record.recordId) :
    (∀ node repo, (nodeRecords records)[tombstone.deletedId]? = some node →
      (edgeRecords records)[tombstone.deletedId]? = none →
      (sliceOwner env records)[tombstone.deletedId]? = some repo → repo = target) ∧
    ∀ edge repo, (edgeRecords records)[tombstone.deletedId]? = some edge →
      (nodeRecords records)[tombstone.deletedId]? = none →
      (sliceOwner env records)[edge.source]? = some repo → repo = target := by
  rcases mem_sliceEvicted taken with ⟨node, known, rfl⟩ | ⟨edge, known, rfl⟩
  · have same : tombstone.deletedId = node.id := ends
    rw [same]
    refine ⟨fun other repo known' _ owned => ?_, fun edge repo _ absent => ?_⟩
    · exact owner_of_evicted ((node_mem_sliceEvicted known).mp taken) owned
    · rw [known] at absent
      cases absent
  · have same : tombstone.deletedId = edge.id := ends
    rw [same]
    refine ⟨fun node repo _ absent => ?_, fun other repo known' _ owned => ?_⟩
    · rw [known] at absent
      cases absent
    · obtain rfl := Option.some.inj (known.symm.trans known')
      obtain ⟨node, source, part⟩ := (edge_mem_sliceEvicted known).mp taken
      exact owner_of_evicted part ((nodeRecords_eq_some source).2.symm ▸ owned)

/-- A plan over one slice takes the footprint of its repository, or repeats an eviction of
which only temporal snapshots are left. -/
theorem planEviction_footprint {now : String} {request : EvictionRequest} {plan : EvictionPlan}
    (planned : planEviction env now records records request = .ok plan) :
    (plan.alreadyEvicted = false → TakesFootprint env records plan) ∧
      (plan.alreadyEvicted = true → RepeatsEviction env records plan) := by
  obtain ⟨target, resolved⟩ := planEviction_eq_ok planned
  obtain ⟨rfl, ⟨fresh, evicted, shared, unattributable⟩ | ⟨only, node, member, event, same⟩⟩ :=
    planResolved_cases now request resolved
  · refine ⟨fun _ => ?_, fun repeated => absurd (fresh.symm.trans repeated) (by decide)⟩
    exact {
      evicted := fun id node known ordinary accounted => by
        rw [evicted, node_mem_sliceEvicted known, evicted_iff known ordinary accounted]
      shared := fun id node known ordinary accounted => by
        rw [shared, mem_sortedById, projection_mem_map known,
          shared_iff known ordinary accounted]
      unattributable := fun id node known ordinary accounted => by
        rw [unattributable, mem_sortedById, projection_mem_map known,
          unattributable_iff known ordinary accounted]
      events := fun id node known event taken => by
        have part := (node_mem_sliceEvicted known).mp (evicted ▸ taken)
        rw [nodeShare, event] at part
        cases part
      edges := fun id edge known => by
        rw [evicted, edge_mem_sliceEvicted known]
        constructor
        · rintro ⟨node, source, part⟩
          exact ⟨node, source, (node_mem_sliceEvicted source).mpr part⟩
        · rintro ⟨node, source, taken⟩
          exact ⟨node, source, (node_mem_sliceEvicted source).mp taken⟩
      spared := fun tombstone written => by
        obtain ⟨record, taken, ends⟩ := deletedId_mem_evicted written
        exact spared_of_evicted (evicted ▸ taken) ends }
  · refine ⟨fun fresh => ?_, fun _ => ?_⟩
    · rw [same] at fresh
      cases fresh
    · exact {
        event := ⟨node, member, event⟩
        snapshots := fun id node known ordinary accounted inside => by
          have part := (evicted_iff known ordinary accounted).mpr inside
          obtain ⟨snapshot, known', temporal⟩ :=
            only.exists_snapshot ((node_mem_sliceEvicted known).mpr part)
          have id_eq : (projection (.node node)).recordId = id := (nodeRecords_eq_some known).2
          rw [id_eq, known, Option.some.injEq] at known'
          exact known' ▸ temporal
        edges := fun edge node listed known ordinary accounted inside =>
          only.exists_snapshot ((edge_mem_sliceEvicted listed).mpr
            ⟨node, known, (evicted_iff known ordinary accounted).mpr inside⟩)
        nothing := by
          rw [same]
          exact ⟨rfl, rfl, rfl, rfl⟩ }

end Slice

section Samples

/-- Libraries that leave texts as they are. -/
def plainEviction : EvictionEnv where
  parseFromRfc3339 _ := .error ""
  redactValue := id
  isRedacted _ := false
  agentMemoryStableId parts := ":".intercalate parts
  evictionHash := id

def plainRequest : EvictionRequest :=
  { selector := "codegraph:v3:home", reason := "archived", evictedBy := "operator" }

def plainNode (id : String) (kind : NodeKind) : GraphRecord :=
  .node { id := id, kind := kind, schemaVersion := 1 }

def plainEdge (id : String) (label : EdgeLabel) (source target : String) : GraphRecord :=
  .edge { id := id, schemaVersion := 1, label := label, source := source, target := target }

/-- Two repositories with a file each, an observation about the first file, one about both, and one
about nothing. -/
def observedFiles : List GraphRecord :=
  [plainNode "codegraph:v3:home" .repository, plainNode "home:file" .file,
    plainEdge "home:holds" .contains "codegraph:v3:home" "home:file",
    plainNode "codegraph:v3:away" .repository, plainNode "away:file" .file,
    plainEdge "away:holds" .contains "codegraph:v3:away" "away:file",
    plainNode "note" .observation, plainEdge "note:cites" .observes "note" "home:file",
    plainNode "both" .observation, plainEdge "both:cites:away" .observes "both" "away:file",
    plainEdge "both:cites:home" .observes "both" "home:file", plainNode "stray" .observation]

/-- The plan for the first repository in that graph. -/
def observedPlan : EvictionPlan :=
  planResolved plainEviction "" observedFiles (sliceIndex plainEviction observedFiles)
    "codegraph:v3:home" plainRequest

/-- The observation about both files is shared, and the one about nothing is unattributable. -/
theorem planEviction_observedFiles :
    TakesFootprint plainEviction observedFiles observedPlan ∧
      observedPlan.evicted.map EvictedRecord.recordId =
        ["codegraph:v3:home", "home:file", "home:holds", "note", "note:cites"] ∧
      observedPlan.sharedCrossRepo.map EvictedRecord.recordId = ["both"] ∧
      observedPlan.unattributable.map EvictedRecord.recordId = ["stray"] := by
  have shown : observedPlan.alreadyEvicted = false ∧
      observedPlan.evicted.map EvictedRecord.recordId =
        ["codegraph:v3:home", "home:file", "home:holds", "note", "note:cites"] ∧
      observedPlan.sharedCrossRepo.map EvictedRecord.recordId = ["both"] ∧
      observedPlan.unattributable.map EvictedRecord.recordId = ["stray"] := by
    decide +kernel
  have resolved : validateRequest plainEviction plainRequest = .ok () ∧
      (sliceIndex plainEviction observedFiles).resolveSelector (trimmed plainRequest.selector) =
        .ok "codegraph:v3:home" := by
    decide +kernel
  obtain ⟨fresh, parts⟩ := shown
  exact ⟨(planEviction_footprint (planEviction_of_resolved resolved.1 resolved.2)).1 fresh, parts⟩

/-- A repository that is itself a snapshot. -/
def snapshotRepository : NodeRecord :=
  { id := "codegraph:v3:home", kind := .repository, schemaVersion := 3
    temporal := some { gitCommit := "c0", validTime := "", observedAt := "" } }

/-- The snapshot with the event of its eviction. -/
def evictedSnapshot : List GraphRecord :=
  [.node snapshotRepository,
    .node { id := "node:repo_eviction:codegraph:v3:home", kind := .retraction
            schemaVersion := 1, rest := [("source_handle", "codegraph:v3:home")] }]

/-- The plan that repeats an eviction takes nothing of what the repository still owns. -/
theorem planEviction_evictedSnapshot :
    ∃ plan, planEviction plainEviction "" evictedSnapshot evictedSnapshot plainRequest =
        .ok plan ∧
      (nodeRecords evictedSnapshot)["codegraph:v3:home"]? = some snapshotRepository ∧
      isEvictionEvent plainEviction snapshotRepository = false ∧
      (sliceOwner plainEviction evictedSnapshot)["codegraph:v3:home"]? =
        some plan.repositoryId ∧
      projection (.node snapshotRepository) ∉ plan.evicted := by
  have resolved : (sliceIndex plainEviction evictedSnapshot).resolveSelector
      (trimmed plainRequest.selector) = .ok "codegraph:v3:home" := by decide
  refine ⟨_, planEviction_of_resolved (by decide) resolved, ?_, ?_, ?_, ?_⟩
  · decide
  · decide
  · decide +kernel
  · decide +kernel

end Samples

end Egregore
