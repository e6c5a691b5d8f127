import Egregore.Base.Traverse
import Egregore.Query.RepresentativeOrder

/-!
# What the collapse of memories computes

The clusters are the connected components of the eligible pairs, and a relation that joins less
splits them: `collapseMemoryRecall_partition_iff`. With a sort that may panic on a comparison that is
no order, the collapse returns only where the stamps of every cluster are in order.
-/

namespace Egregore

open Base Relation

/-- Some block holds both positions. -/
def Together {size : Nat} (blocks : List (List (Fin size))) (first second : Fin size) : Prop :=
  ∃ block ∈ blocks, first ∈ block ∧ second ∈ block

/-- The positions of the members of each cluster. -/
structure ClustersOf (candidates : List CollapseCandidate) (outcome : CollapseOutcome)
    (blocks : List (List (Fin candidates.length))) : Prop where
  members : (outcome.clusters.map CollapsedCluster.members).Perm
    (blocks.map (List.map candidates.get))
  nonempty : ∀ block ∈ blocks, block ≠ []
  once : blocks.flatten.Perm (List.finRange candidates.length)

/-- A pair of candidates that the relation may join. -/
structure Eligible (above : CollapseCandidate → CollapseCandidate → Bool)
    (candidates : List CollapseCandidate) (first second : Fin candidates.length) : Prop where
  earlier : first < second
  authored : (candidates.get first).agentAuthored = true ∧
    (candidates.get second).agentAuthored = true
  sameKind : (candidates.get first).kind = (candidates.get second).kind
  sameTarget : ∃ target other, (candidates.get first).primaryTarget = some target ∧
    (candidates.get second).primaryTarget = some other ∧
      target.targetRecordId = other.targetRecordId ∧ target.asOfCommit = other.asOfCommit
  similar : above (candidates.get first) (candidates.get second) = true

section Groups

variable {size : Nat} {candidate : Fin size → CollapseCandidate}

/-- What a candidate cites, as the groups compare it. -/
def CollapseCandidate.cited (candidate : CollapseCandidate) : Option (String × Option String) :=
  candidate.primaryTarget.map fun target => (target.targetRecordId, target.asOfCommit)

/-- In an ascending list the earlier of two elements is the smaller. -/
theorem pair_sublist_iff {items : List (Fin size)} (ascending : items.Pairwise (· < ·))
    {first second : Fin size} :
    [first, second].Sublist items ↔ first < second ∧ first ∈ items ∧ second ∈ items := by
  constructor
  · intro sub
    exact ⟨List.pairwise_pair.mp (ascending.sublist sub), sub.subset (by simp),
      sub.subset (by simp)⟩
  · rintro ⟨less, inFirst, inSecond⟩
    induction items with
    | nil => simp at inFirst
    | cons item rest ih =>
      obtain ⟨above, ascending⟩ := List.pairwise_cons.mp ascending
      rcases List.mem_cons.mp inFirst with rfl | inFirst
      · have later : second ∈ rest := (List.mem_cons.mp inSecond).resolve_left less.ne'
        exact (List.singleton_sublist.mpr later).cons_cons _
      · have later : second ∈ rest :=
          (List.mem_cons.mp inSecond).resolve_left ((above first inFirst).trans less).ne'
        exact (ih ascending inFirst later).cons _

/-- A pair is in a group, in this order, when the candidates cite the same. -/
theorem pair_sublist_targetGroups_iff {first second : Fin size} :
    (∃ group ∈ (targetGroups candidate).toList.map Prod.snd, [first, second].Sublist group) ↔
      first < second ∧ ∃ key, (candidate first).cited = some key ∧
        (candidate second).cited = some key := by
  have groups : targetGroups candidate = (List.finRange size).foldl (pushEntry fun index =>
      (candidate index).cited.map fun key => (key, index)) ∅ := by
    simp only [targetGroups, CollapseCandidate.cited, Option.map_map, Function.comp_def]
  have ascending (key : String × Option String) : ((List.finRange size).filter fun index =>
      (candidate index).cited = some key).Pairwise (· < ·) :=
    (List.pairwise_lt_finRange size).filter _
  rw [groups]
  simp only [mem_foldl_pushEntry_keyed]
  constructor
  · rintro ⟨group, ⟨-, key, rfl⟩, sub⟩
    obtain ⟨less, inFirst, inSecond⟩ := (pair_sublist_iff (ascending key)).mp sub
    simp only [List.mem_filter, decide_eq_true_eq] at inFirst inSecond
    exact ⟨less, key, inFirst.2, inSecond.2⟩
  · rintro ⟨less, key, citesFirst, citesSecond⟩
    have sub := (pair_sublist_iff (ascending key)).mpr
      ⟨less, by simp [citesFirst], by simp [citesSecond]⟩
    exact ⟨_, ⟨List.ne_nil_of_mem (sub.subset (List.mem_cons_self ..)), key, rfl⟩, sub⟩

end Groups

section Components

variable {size : Nat} {candidate : Fin size → CollapseCandidate}
variable {above : CollapseCandidate → CollapseCandidate → Bool}
variable {forest : UnionFind size} {links : Fin size → Fin size → Prop}

theorem represents_congr {others : Fin size → Fin size → Prop}
    (same : ∀ first second, links first second ↔ others first second) :
    forest.Represents links ↔ forest.Represents others := by
  have equal : links = others := by
    ext first second
    exact same first second
  rw [equal]

/-- A group adds its pairs that may merge. -/
theorem represents_joinGroup (group : List (Fin size)) (represents : forest.Represents links) :
    (joinGroup candidate above forest group).Represents fun first second => links first second ∨
      [first, second].Sublist group ∧
        mayMerge above (candidate first) (candidate second) = true := by
  induction group generalizing forest links with
  | nil => simpa [joinGroup] using represents
  | cons item rest ih =>
    -- The pairs of the first member, then those of the others.
    have own (others : List (Fin size)) : (others.foldl (fun forest second =>
        if mayMerge above (candidate item) (candidate second) then forest.union item second
        else forest) forest).Represents fun first second => links first second ∨
          first = item ∧ second ∈ others ∧
            mayMerge above (candidate first) (candidate second) = true := by
      induction others using List.reverseRecOn with
      | nil => simpa using represents
      | append_singleton others last ih =>
        rw [List.foldl_append, List.foldl_cons, List.foldl_nil]
        split
        · next merges =>
          refine (represents_congr fun first second => ?_).mp (ih.union item last)
          simp only [List.mem_append, List.mem_singleton]
          grind
        · next differs =>
          refine (represents_congr fun first second => ?_).mp ih
          simp only [List.mem_append, List.mem_singleton]
          grind
    refine (represents_congr fun first second => ?_).mp (ih (own rest))
    rw [List.cons_sublist_cons', List.singleton_sublist]
    grind

/-- The union-find joins what the groups and the relation allow. -/
theorem represents_joinGroups :
    (joinGroups candidate above).Represents fun first second => first < second ∧
      (∃ key, (candidate first).cited = some key ∧ (candidate second).cited = some key) ∧
        mayMerge above (candidate first) (candidate second) = true := by
  have run (groups : List (List (Fin size))) :
      (groups.foldl (joinGroup candidate above) (UnionFind.new size)).Represents
        fun first second => (∃ group ∈ groups, [first, second].Sublist group) ∧
          mayMerge above (candidate first) (candidate second) = true := by
    induction groups using List.reverseRecOn with
    | nil => simpa using UnionFind.represents_new
    | append_singleton groups group ih =>
      rw [List.foldl_append, List.foldl_cons, List.foldl_nil]
      refine (represents_congr fun first second => ?_).mp (represents_joinGroup group ih)
      simp only [List.mem_append, List.mem_singleton]
      grind
  refine (represents_congr fun first second => ?_).mp (run _)
  rw [pair_sublist_targetGroups_iff, and_assoc]

/-- The searches for the roots keep them. -/
theorem components_eq : components forest = (List.finRange size).foldl (pushEntry fun index =>
    (some (forest.root index)).map fun root => (root, index)) ∅ := by
  have run (indices : List (Fin size)) :
      (∀ index, (indices.foldl pushComponent (forest, ∅)).1.root index = forest.root index) ∧
        (indices.foldl pushComponent (forest, ∅)).2 = indices.foldl (pushEntry fun index =>
          (some (forest.root index)).map fun root => (root, index)) ∅ := by
    induction indices using List.reverseRecOn with
    | nil => exact ⟨fun _ => rfl, rfl⟩
    | append_singleton indices index ih =>
      obtain ⟨roots, entries⟩ := ih
      simp only [List.foldl_append, List.foldl_cons, List.foldl_nil, pushComponent,
        UnionFind.find_root, UnionFind.root_find, roots, entries]
      exact ⟨fun _ => trivial, rfl⟩
  exact (run _).2

/-- The components are the classes of the forest. -/
theorem mem_components_iff {block : List (Fin size)} :
    block ∈ (components forest).toList.map Prod.snd ↔
      block ≠ [] ∧ ∃ root, block = (List.finRange size).filter fun index =>
        forest.root index = root := by
  rw [components_eq, mem_foldl_pushEntry_keyed]
  simp only [Option.some.injEq]

/-- The components list every position once. -/
theorem flatten_components_perm :
    ((components forest).toList.map Prod.snd).flatten.Perm (List.finRange size) := by
  apply (List.perm_ext_iff_of_nodup ?_ (List.nodup_finRange size)).mpr
  · intro index
    simp only [List.mem_flatten, mem_components_iff, List.mem_finRange, iff_true]
    have member : index ∈ (List.finRange size).filter fun other =>
        forest.root other = forest.root index := by simp
    exact ⟨_, ⟨List.ne_nil_of_mem member, _, rfl⟩, member⟩
  · rw [List.nodup_flatten]
    constructor
    · intro block listed
      obtain ⟨-, root, rfl⟩ := mem_components_iff.mp listed
      exact (List.nodup_finRange size).filter _
    · rw [components_eq]
      exact disjoint_foldl_pushEntry_keyed ..

theorem together_components_iff {first second : Fin size} :
    Together ((components forest).toList.map Prod.snd) first second ↔
      forest.root first = forest.root second := by
  constructor
  · rintro ⟨block, listed, inFirst, inSecond⟩
    obtain ⟨-, root, rfl⟩ := mem_components_iff.mp listed
    simp only [List.mem_filter, decide_eq_true_eq] at inFirst inSecond
    exact inFirst.2.trans inSecond.2.symm
  · intro same
    have member : first ∈ (List.finRange size).filter fun other =>
        forest.root other = forest.root first := by simp
    exact ⟨_, mem_components_iff.mpr ⟨List.ne_nil_of_mem member, _, rfl⟩, member,
      by simp [same]⟩

/-- A position is in one component. -/
theorem eq_of_mem_components {block other : List (Fin size)} {index : Fin size}
    (listed : block ∈ (components forest).toList.map Prod.snd)
    (listed' : other ∈ (components forest).toList.map Prod.snd)
    (inside : index ∈ block) (inside' : index ∈ other) : block = other := by
  obtain ⟨-, root, rfl⟩ := mem_components_iff.mp listed
  obtain ⟨-, root', rfl⟩ := mem_components_iff.mp listed'
  simp only [List.mem_filter, decide_eq_true_eq] at inside inside'
  rw [← inside.2, ← inside'.2]

end Components

section Clusters

variable {sort : SliceSort} {chrono : Chrono} {size : Nat}
variable {candidate : Fin size → CollapseCandidate} {positions : List (Fin size)}

/-- The stamps at some positions. -/
def stampsAt (candidate : Fin size → CollapseCandidate) (positions : List (Fin size)) :
    List String :=
  positions.filterMap fun index => (candidate index).observedAt

/-- The stamps of a list of candidates are those at their positions. -/
theorem filterMap_observedAt_map :
    (positions.map candidate).filterMap CollapseCandidate.observedAt =
      stampsAt candidate positions :=
  List.filterMap_map ..

/-- Stamps in order rank the positions they are at. -/
theorem consistent_ranking (inOrder : StampsInOrder chrono (stampsAt candidate positions)) :
    Consistent (fun first second => representativeOrder chrono (candidate first) (candidate second))
      positions := by
  rw [← filterMap_observedAt_map] at inOrder
  have ranked := consistent_representativeOrder_iff.mpr inOrder.stampsAgree
  have listed {index : Fin size} (member : index ∈ positions) :
      candidate index ∈ positions.map candidate := List.mem_map_of_mem member
  exact {
    antisymmetric := fun first inFirst second inSecond =>
      ranked.antisymmetric _ (listed inFirst) _ (listed inSecond)
    transitive := fun first inFirst second inSecond third inThird =>
      ranked.transitive _ (listed inFirst) _ (listed inSecond) _ (listed inThird) }

/-- Stamps stay in order in another arrangement. -/
theorem StampsInOrder.of_perm {other : List (Fin size)} (same : positions.Perm other)
    (inOrder : StampsInOrder chrono (stampsAt candidate positions)) :
    StampsInOrder chrono (stampsAt candidate other) := by
  have within {stamp : String} (member : stamp ∈ stampsAt candidate other) :
      stamp ∈ stampsAt candidate positions := (same.filterMap _).mem_iff.mpr member
  exact fun early inEarly odd inOdd late inLate =>
    inOrder early (within inEarly) odd (within inOdd) late (within inLate)

/-- A cluster shows its positions in some arrangement. -/
theorem members_collapsedCluster {cluster : CollapsedCluster}
    (found : collapsedCluster sort chrono candidate positions = some cluster) :
    ∃ arranged : List (Fin size), arranged.Perm positions ∧
      cluster.members = arranged.map candidate := by
  simp only [collapsedCluster, Option.bind_eq_bind, Option.bind_eq_some_iff, Option.pure_def,
    Option.some.injEq] at found
  obtain ⟨arranged, ranked, -, -, -, -, rfl⟩ := found
  exact ⟨arranged, sort.perm ranked, rfl⟩

/-- Where the stamps are in order, the cluster of some positions is built. -/
theorem exists_collapsedCluster (nonempty : positions ≠ [])
    (inOrder : StampsInOrder chrono (stampsAt candidate positions)) :
    ∃ cluster, collapsedCluster sort chrono candidate positions = some cluster := by
  obtain ⟨arranged, ranked, -⟩ := sort.sorted (consistent_ranking inOrder)
  have same := sort.perm ranked
  obtain ⟨observed, found, -⟩ :=
    sort.sorted (consistent_stampOrder_iff.mpr (inOrder.of_perm same.symm))
  obtain ⟨first, later, rfl⟩ : ∃ first later, arranged = first :: later :=
    List.exists_cons_of_ne_nil fun empty => nonempty (same.symm.trans (empty ▸ .nil)).eq_nil
  rw [← filterMap_observedAt_map] at found
  simp only [collapsedCluster, Option.bind_eq_bind, ranked, Option.bind_some, found]
  exact ⟨_, rfl⟩

/-- With the strict sort, it is built only there. -/
theorem stampsInOrder_of_strict {cluster : CollapsedCluster}
    (found : collapsedCluster .strict chrono candidate positions = some cluster) :
    StampsInOrder chrono (stampsAt candidate positions) := by
  simp only [collapsedCluster, Option.bind_eq_bind, Option.bind_eq_some_iff, filterMap_observedAt_map]
    at found
  obtain ⟨arranged, ranked, observed, compared, -⟩ := found
  have inOrder := consistent_stampOrder_iff.mp (SliceSort.consistent_of_strict compared)
  exact inOrder.of_perm (SliceSort.strict.perm ranked)

/-- Clusters rank by their scores and then by their IDs. -/
theorem clusterOrder_ne_gt_iff {first second : CollapsedCluster} :
    clusterOrder first second ≠ .gt ↔
      (second.representative.retrievalScore.getD F32.negInfinity).totalRank <
          (first.representative.retrievalScore.getD F32.negInfinity).totalRank ∨
        (second.representative.retrievalScore.getD F32.negInfinity).totalRank =
            (first.representative.retrievalScore.getD F32.negInfinity).totalRank ∧
          byteOrder first.representative.recordId second.representative.recordId ≠ .gt := by
  rw [clusterOrder, then_ne_gt_iff, F32.totalCmp, cmp_eq_lt_iff, cmp_eq_eq_iff]

/-- The order of the clusters is consistent on all of them. -/
theorem consistent_clusterOrder (clusters : List CollapsedCluster) :
    Consistent clusterOrder clusters where
  antisymmetric first _ second _ := by
    have ids : byteOrder second.representative.recordId first.representative.recordId =
        (byteOrder first.representative.recordId second.representative.recordId).swap :=
      Std.OrientedCmp.eq_swap
    rw [clusterOrder, clusterOrder, Ordering.swap_then, F32.totalCmp, F32.totalCmp, cmp_swap, ids]
  transitive first _ second _ third _ le le' := by
    rw [clusterOrder_ne_gt_iff] at le le' ⊢
    rcases le with less | ⟨same, le⟩
    · rcases le' with less' | ⟨same', -⟩
      · exact Or.inl (less'.trans less)
      · exact Or.inl (same' ▸ less)
    · rcases le' with less' | ⟨same', le'⟩
      · exact Or.inl (same ▸ less')
      · exact Or.inr ⟨same'.trans same, byteOrder_ne_gt_trans le le'⟩

/-- Clusters in turn show some arrangements of the blocks they are built from. -/
theorem arranged_of_clusters {blocks : List (List (Fin size))} {clusters : List CollapsedCluster}
    (turns : List.Forall₂ (fun block cluster =>
      collapsedCluster sort chrono candidate block = some cluster) blocks clusters) :
    ∃ arranged, List.Forall₂ List.Perm arranged blocks ∧
      clusters.map CollapsedCluster.members = arranged.map (List.map candidate) := by
  induction turns with
  | nil => exact ⟨[], .nil, rfl⟩
  | cons found _ ih =>
    obtain ⟨others, perms, shown⟩ := ih
    obtain ⟨first, perm, members⟩ := members_collapsedCluster found
    exact ⟨first :: others, .cons perm perms, by rw [List.map_cons, List.map_cons, members, shown]⟩

/-- Arranging blocks keeps who is together. -/
theorem together_of_perms {blocks arranged : List (List (Fin size))}
    (perms : List.Forall₂ List.Perm arranged blocks) {first second : Fin size} :
    Together arranged first second ↔ Together blocks first second := by
  induction perms with
  | nil => rfl
  | cons perm _ ih => simp only [Together, List.exists_mem_cons_iff, perm.mem_iff] at ih ⊢; rw [ih]

/-- A collapse that returned built the cluster of every component. -/
theorem clusters_of_collapse
    {above : CollapseConfig → CollapseCandidate → CollapseCandidate → Bool}
    {candidates : List CollapseCandidate} {config : CollapseConfig} {outcome : CollapseOutcome}
    (returned : collapseMemoryRecall sort chrono above candidates config = some outcome) :
    ∃ clusters, outcome.clusters.Perm clusters ∧
      List.Forall₂ (fun block cluster =>
          collapsedCluster sort chrono candidates.get block = some cluster)
        ((components (joinGroups candidates.get (above config))).toList.map Prod.snd) clusters := by
  simp only [collapseMemoryRecall, Option.bind_eq_bind, Option.bind_eq_some_iff, Option.pure_def,
    Option.some.injEq] at returned
  obtain ⟨clusters, built, ranked, found, rfl⟩ := returned
  exact ⟨clusters, sort.perm found, mapM_eq_some_iff.mp built⟩

/-- Two positions share a component when a chain of eligible pairs links them. -/
theorem together_components_joinGroups_iff
    {above : CollapseCandidate → CollapseCandidate → Bool} {candidates : List CollapseCandidate}
    {first second : Fin candidates.length} :
    Together ((components (joinGroups candidates.get above)).toList.map Prod.snd) first second ↔
      EqvGen (Eligible above candidates) first second := by
  rw [together_components_iff]
  refine (represents_congr fun first second => ?_).mp represents_joinGroups first second
  simp only [mayMerge, Bool.and_eq_true, decide_eq_true_eq, CollapseCandidate.cited,
    Option.map_eq_some_iff]
  constructor
  · rintro ⟨earlier, ⟨key, ⟨target, cites, rfl⟩, other, cites', same⟩, ⟨authored, sameKind⟩,
      similar⟩
    obtain ⟨sameRecord, sameCommit⟩ := Prod.mk.inj same
    exact ⟨earlier, authored, sameKind, ⟨target, other, cites, cites', sameRecord.symm,
      sameCommit.symm⟩, similar⟩
  · rintro ⟨earlier, authored, sameKind, ⟨target, other, cites, cites', sameRecord, sameCommit⟩,
      similar⟩
    exact ⟨earlier, ⟨_, ⟨target, cites, rfl⟩, other, cites', by rw [sameRecord, sameCommit]⟩,
      ⟨authored, sameKind⟩, similar⟩

/-- An outcome shows the components, each in some arrangement. -/
theorem clustersOf_collapse
    {above : CollapseConfig → CollapseCandidate → CollapseCandidate → Bool}
    {candidates : List CollapseCandidate} {config : CollapseConfig} {outcome : CollapseOutcome}
    (returned : collapseMemoryRecall sort chrono above candidates config = some outcome) :
    ∃ blocks, ClustersOf candidates outcome blocks ∧ ∀ first second,
      Together blocks first second ↔ EqvGen (Eligible (above config) candidates) first second := by
  obtain ⟨clusters, perm, turns⟩ := clusters_of_collapse returned
  obtain ⟨arranged, perms, shown⟩ := arranged_of_clusters turns
  refine ⟨arranged, ⟨?_, ?_, ?_⟩, fun _ _ =>
    (together_of_perms perms).trans together_components_joinGroups_iff⟩
  · rw [← shown]
    exact perm.map _
  · intro block listed empty
    obtain ⟨component, listed', same⟩ := exists_of_forall₂ perms listed
    subst empty
    exact (mem_components_iff.mp listed').1 same.nil_eq.symm
  · exact (List.Perm.flatten_congr perms).trans flatten_components_perm

/-- A position is in one block. -/
theorem ClustersOf.eq_of_mem {candidates : List CollapseCandidate} {outcome : CollapseOutcome}
    {blocks : List (List (Fin candidates.length))} (clusters : ClustersOf candidates outcome blocks)
    {block other : List (Fin candidates.length)} (listed : block ∈ blocks)
    (listed' : other ∈ blocks) {index : Fin candidates.length} (inside : index ∈ block)
    (inside' : index ∈ other) : block = other := by
  have apart := (List.nodup_flatten.mp
    (clusters.once.nodup_iff.mpr (List.nodup_finRange _))).2
  have symmetric : Std.Symm (@List.Disjoint (Fin candidates.length)) :=
    ⟨fun _ _ disjoint => disjoint.symm⟩
  by_contra differ
  exact apart.forall listed listed' differ inside inside'

/-- In every cluster, the stamps are in order. -/
def ClusterStampsInOrder (chrono : Chrono) (above : CollapseCandidate → CollapseCandidate → Bool)
    (candidates : List CollapseCandidate) : Prop :=
  ∀ linked : List (Fin candidates.length),
    (∀ first ∈ linked, ∀ second ∈ linked, EqvGen (Eligible above candidates) first second) →
      StampsInOrder chrono (stampsAt candidates.get linked)

/-- The runs collapse the candidates by chains of eligible pairs, every candidate in one cluster, and
a run that allows less refines the clusters of another. -/
structure CollapsesByChains (sort : SliceSort) (chrono : Chrono)
    (above : CollapseConfig → CollapseCandidate → CollapseCandidate → Bool)
    (candidates : List CollapseCandidate) (runs : Set CollapseConfig)
    (blocks : CollapseConfig → List (List (Fin candidates.length))) : Prop where
  returned : ∀ config ∈ runs, ∃ outcome,
    collapseMemoryRecall sort chrono above candidates config = some outcome ∧
      ClustersOf candidates outcome (blocks config)
  chains : ∀ config ∈ runs, ∀ first second, Together (blocks config) first second ↔
    EqvGen (Eligible (above config) candidates) first second
  refined : ∀ fine ∈ runs, ∀ coarse ∈ runs,
    (∀ first second, above fine first second = true → above coarse first second = true) →
      ∀ block ∈ blocks fine, ∃ wider ∈ blocks coarse, block ⊆ wider

section Runs

variable {above : CollapseConfig → CollapseCandidate → CollapseCandidate → Bool}
variable {candidates : List CollapseCandidate} {config : CollapseConfig}

/-- Where the stamps of every cluster are in order, the collapse returns. -/
theorem exists_collapse (inOrder : ClusterStampsInOrder chrono (above config) candidates) :
    ∃ outcome, collapseMemoryRecall sort chrono above candidates config = some outcome := by
  have built : ∀ block ∈
      (components (joinGroups candidates.get (above config))).toList.map Prod.snd,
      ∃ cluster, collapsedCluster sort chrono candidates.get block = some cluster := by
    intro block listed
    refine exists_collapsedCluster (mem_components_iff.mp listed).1 (inOrder block ?_)
    exact fun first inFirst second inSecond =>
      together_components_joinGroups_iff.mp ⟨block, listed, inFirst, inSecond⟩
  obtain ⟨clusters, mapped⟩ := exists_mapM_some built
  obtain ⟨ranked, found, -⟩ := sort.sorted (consistent_clusterOrder clusters)
  simp [collapseMemoryRecall, mapped, found]

/-- With the strict sort, it returns only there. -/
theorem clusterStampsInOrder_of_strict {outcome : CollapseOutcome}
    (returned : collapseMemoryRecall .strict chrono above candidates config = some outcome) :
    ClusterStampsInOrder chrono (above config) candidates := by
  intro linked chained
  cases linked with
  | nil => simp [stampsAt, StampsInOrder]
  | cons index rest =>
    obtain ⟨clusters, -, turns⟩ := clusters_of_collapse returned
    -- All the linked positions are in the component of the first one.
    obtain ⟨block, listed, inside, -⟩ := together_components_joinGroups_iff.mpr
      (chained index List.mem_cons_self index List.mem_cons_self)
    obtain ⟨cluster, -, found⟩ := exists_of_forall₂ turns listed
    have inOrder := stampsInOrder_of_strict found
    have within {stamp : String} (member : stamp ∈ stampsAt candidates.get (index :: rest)) :
        stamp ∈ stampsAt candidates.get block := by
      obtain ⟨other, isLinked, stamped⟩ := List.mem_filterMap.mp member
      obtain ⟨block', listed', inside', member'⟩ := together_components_joinGroups_iff.mpr
        (chained index List.mem_cons_self other isLinked)
      rw [eq_of_mem_components listed listed' inside inside']
      exact List.mem_filterMap.mpr ⟨other, member', stamped⟩
    exact fun early inEarly odd inOdd late inLate =>
      inOrder early (within inEarly) odd (within inOdd) late (within inLate)

end Runs

/-- Runs collapse by chains with every documented sort exactly if the stamps of their clusters are in
order: a stamp that is no instant lies between two that are, by the texts, only if these are in
order. -/
theorem collapseMemoryRecall_partition_iff (chrono : Chrono)
    (above : CollapseConfig → CollapseCandidate → CollapseCandidate → Bool)
    (candidates : List CollapseCandidate) (runs : Set CollapseConfig) :
    (∀ sort : SliceSort, ∃ blocks, CollapsesByChains sort chrono above candidates runs blocks) ↔
      ∀ config ∈ runs, ClusterStampsInOrder chrono (above config) candidates := by
  constructor
  · intro collapses config run
    obtain ⟨blocks, law⟩ := collapses .strict
    obtain ⟨outcome, returned, -⟩ := law.returned config run
    exact clusterStampsInOrder_of_strict returned
  · intro inOrder sort
    have spec : ∀ config, ∃ blocks, config ∈ runs →
        (∃ outcome, collapseMemoryRecall sort chrono above candidates config = some outcome ∧
          ClustersOf candidates outcome blocks) ∧
        ∀ first second, Together blocks first second ↔
          EqvGen (Eligible (above config) candidates) first second := by
      intro config
      by_cases run : config ∈ runs
      · obtain ⟨outcome, returned⟩ :
            ∃ outcome, collapseMemoryRecall sort chrono above candidates config = some outcome :=
          exists_collapse (inOrder config run)
        obtain ⟨blocks, clusters, chains⟩ := clustersOf_collapse returned
        exact ⟨blocks, fun _ => ⟨⟨outcome, returned, clusters⟩, chains⟩⟩
      · exact ⟨[], fun run' => absurd run' run⟩
    choose blocks law using spec
    refine ⟨blocks, fun config run => (law config run).1, fun config run => (law config run).2, ?_⟩
    intro fine isFine coarse isCoarse allows block listed
    obtain ⟨⟨_, -, clusters⟩, chains⟩ := law fine isFine
    obtain ⟨⟨_, -, clusters'⟩, chains'⟩ := law coarse isCoarse
    have wider : EqvGen (Eligible (above fine) candidates) ≤
        EqvGen (Eligible (above coarse) candidates) :=
      EqvGen.mono fun _ _ eligible =>
        { eligible with similar := allows _ _ eligible.similar }
    obtain ⟨first, inside⟩ := List.exists_mem_of_ne_nil _ (clusters.nonempty block listed)
    obtain ⟨block', listed', inside', -⟩ := (chains' first first).mpr (.refl first)
    refine ⟨block', listed', fun second member => ?_⟩
    have together := wider _ _ ((chains first second).mp ⟨block, listed, inside, member⟩)
    obtain ⟨block'', listed'', inside'', member''⟩ := (chains' first second).mpr together
    rwa [clusters'.eq_of_mem listed' listed'' inside' inside'']

/-- Observations of one record with one text. Their stamps are midnight and ten past midnight in turn,
the latter without seconds, and then half past midnight one hour east, which is earlier. -/
def interposedRecall : List CollapseCandidate :=
  let ids := ["a", "b", "c", "d", "e", "f", "g", "h", "i", "j", "k", "l", "m", "n", "o", "p", "q", "r",
    "s", "t", "u"]
  let stamps := (List.replicate 5 ["2026-01-01T00:00:00Z", "2026-01-01T00:10"]).flatten ++
    List.replicate 11 "2026-01-01T00:30:00+01:00"
  (ids.zip stamps).map fun entry =>
    { rankedCandidate entry.1 entry.2 with
      primaryTarget := some { targetRecordId := "f", relation := "OBSERVES", asOfCommit := none } }

/-- Each two of them may be joined. -/
theorem eligible_interposedRecall {similarity : Similarity} {config : CollapseConfig}
    (mode : config.mode = .normalizedText) {first second : Fin interposedRecall.length}
    (earlier : first < second) :
    Eligible (aboveThreshold similarity config) interposedRecall first second := by
  obtain ⟨entry, -, made⟩ := List.mem_map.mp (List.get_mem interposedRecall first)
  obtain ⟨entry', -, made'⟩ := List.mem_map.mp (List.get_mem interposedRecall second)
  refine ⟨earlier, ?_, ?_, ?_, ?_⟩
  · rw [← made, ← made']
    exact ⟨rfl, rfl⟩
  · rw [← made, ← made']
    rfl
  · rw [← made, ← made']
    exact ⟨_, _, rfl, rfl, rfl, rfl⟩
  · rw [← made, ← made', aboveThreshold, mode]
    simp [rankedCandidate]

/-- So all of them are linked. -/
theorem linked_interposedRecall {similarity : Similarity} {config : CollapseConfig}
    (mode : config.mode = .normalizedText) (first second : Fin interposedRecall.length) :
    EqvGen (Eligible (aboveThreshold similarity config) interposedRecall) first second := by
  rcases lt_trichotomy first second with less | rfl | greater
  · exact .rel _ _ (eligible_interposedRecall mode less)
  · exact .refl _
  · exact .symm _ _ (.rel _ _ (eligible_interposedRecall mode greater))

/-- A sort that finds the stamps out of order panics. -/
theorem interposedRecall_panics :
    ¬ ∀ (sort : SliceSort) (chrono : Chrono)
        (above : CollapseConfig → CollapseCandidate → CollapseCandidate → Bool)
        (candidates : List CollapseCandidate) (runs : Set CollapseConfig),
      ∃ blocks, CollapsesByChains sort chrono above candidates runs blocks := by
  intro always
  let config : CollapseConfig := { mode := .normalizedText, similarityThreshold := F32.negInfinity }
  obtain ⟨blocks, law⟩ := always .strict stampChrono
    (aboveThreshold { normalizeMemoryText := id, cosineSimilarity := fun _ _ => none })
    interposedRecall {config}
  obtain ⟨outcome, returned, -⟩ := law.returned config rfl
  have inOrder := clusterStampsInOrder_of_strict returned
    [⟨0, by decide⟩, ⟨1, by decide⟩, ⟨10, by decide⟩] fun first _ second _ =>
      linked_interposedRecall rfl first second
  have less := inOrder "2026-01-01T00:00:00Z" (by simp [stampsAt, interposedRecall, rankedCandidate])
    "2026-01-01T00:10" (by simp [stampsAt, interposedRecall, rankedCandidate])
    "2026-01-01T00:30:00+01:00" (by simp [stampsAt, interposedRecall, rankedCandidate])
    (toLex (1767225600, 0)) (toLex (1767223800, 0)) rfl rfl (by simp [stampChrono])
    (by decide) (by decide)
  exact absurd less (by decide)

/-- Where the mode stays, a higher threshold allows less. -/
theorem aboveThreshold_mono (similarity : Similarity) {strict loose : CollapseConfig}
    (sameMode : strict.mode = loose.mode)
    (higher : strict.similarityThreshold.ge loose.similarityThreshold = true)
    (first second : CollapseCandidate)
    (similar : aboveThreshold similarity strict first second = true) :
    aboveThreshold similarity loose first second = true := by
  rw [aboveThreshold, ← sameMode]
  rw [aboveThreshold] at similar
  split at similar
  · split at similar
    · simp only [Option.any_eq_true] at similar ⊢
      obtain ⟨cosine, found, reaches⟩ := similar
      exact ⟨cosine, found, F32.ge_trans reaches higher⟩
    · cases similar
  · exact similar

end Clusters

end Egregore
